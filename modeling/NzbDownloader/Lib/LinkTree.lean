import Mathlib.Data.List.Infix

/-!
# A file tree with symbolic and hard links

Every object has a physical path, whose proper prefixes are directories; two paths with one
inode are hard links.
-/

namespace NzbDownloader.Lib

open List

universe u

inductive Comp (ν : Type u)
  | name (n : ν)
  | up
  deriving DecidableEq, Repr

structure Target (ν : Type u) where
  absolute : Bool
  comps : List (Comp ν)
  deriving DecidableEq, Repr

inductive Node (ν : Type u)
  | file (inode : ℕ)
  | dir
  | link (target : Target ν)
  deriving DecidableEq, Repr

structure LinkTree (ν : Type u) where
  nodes : List (List ν × Node ν)
  deriving DecidableEq, Repr

variable {fuel : ℕ}

namespace LinkTree

variable {ν : Type u} [DecidableEq ν]

def get (tree : LinkTree ν) (path : List ν) : Option (Node ν) :=
  (tree.nodes.find? fun entry => entry.1 = path).map (·.2)

def remove (tree : LinkTree ν) (path : List ν) : LinkTree ν :=
  ⟨tree.nodes.filter fun entry => entry.1 ≠ path⟩

def put (tree : LinkTree ν) (path : List ν) (node : Node ν) : LinkTree ν :=
  ⟨(path, node) :: (tree.remove path).nodes⟩

def children (tree : LinkTree ν) (dir : List ν) : List ν :=
  tree.nodes.filterMap fun entry =>
    entry.1.getLast?.filter fun n => entry.1 = dir ++ [n]

def hasEntries (tree : LinkTree ν) (path : List ν) : Bool :=
  tree.nodes.any fun entry => path <+: entry.1 ∧ entry.1 ≠ path

def freshInode (tree : LinkTree ν) : ℕ :=
  tree.nodes.foldr (fun entry bound =>
    match entry.2 with
    | .file inode => max (inode + 1) bound
    | _ => bound) 0

variable {node : Node ν} {other names : List ν} {n : ν} {comps : List (Comp ν)}

section Access

variable {tree : LinkTree ν} {path : List ν}

theorem get_remove_of_ne (different : other ≠ path) :
    (tree.remove path).get other = tree.get other := by
  unfold get remove
  rw [find?_filter]
  congr 2
  funext entry
  by_cases here : entry.1 = other
  · simp [here, different]
  · simp [here]

@[simp]
theorem get_remove_self : (tree.remove path).get path = none := by
  simp [get, remove, find?_filter]

@[simp]
theorem get_put_self : (tree.put path node).get path = some node := by
  simp [get, put]

theorem get_put_of_ne (different : other ≠ path) :
    (tree.put path node).get other = tree.get other := by
  calc (tree.put path node).get other
    _ = (tree.remove path).get other := by simp [get, put, Ne.symm different]
    _ = tree.get other := get_remove_of_ne different

theorem mem_nodes_of_get (found : tree.get path = some node) : (path, node) ∈ tree.nodes := by
  obtain ⟨⟨here, node⟩, isEntry, rfl⟩ := Option.map_eq_some_iff.mp found
  obtain rfl : here = path := by simpa using find?_some isEntry
  exact mem_of_find?_eq_some isEntry

theorem mem_children : n ∈ tree.children path ↔ (tree.get (path ++ [n])).isSome = true := by
  simp only [children, get, mem_filterMap, Option.isSome_map, find?_isSome,
    Option.filter_eq_some_iff, decide_eq_true_eq]
  constructor
  · rintro ⟨entry, member, -, here⟩
    exact ⟨entry, member, here⟩
  · rintro ⟨entry, member, here⟩
    exact ⟨entry, member, by rw [here, getLast?_concat], here⟩

theorem lt_freshInode {inode : ℕ} (found : tree.get path = some (.file inode)) :
    inode < tree.freshInode := by
  obtain ⟨nodes⟩ := tree
  unfold get at found
  unfold freshInode
  induction nodes with
  | nil => contradiction
  | cons entry rest ih =>
    obtain ⟨here, node⟩ := entry
    by_cases same : here = path
    · obtain rfl : node = .file inode := by simpa [same] using found
      exact Nat.lt_of_lt_of_le (Nat.lt_succ_self inode) (Nat.le_max_left _ _)
    have later := ih (by simpa [same] using found)
    rw [foldr_cons]
    split
    · exact Nat.lt_of_lt_of_le later (Nat.le_max_right _ _)
    · exact later

end Access

inductive Progress (ν : Type u)
  | arrived (path : List ν)
  | link (dir : List ν) (target : Target ν) (rest : List (Comp ν))
  | stuck

def advance (tree : LinkTree ν) : List ν → List (Comp ν) → Progress ν
  | dir, [] => .arrived dir
  | dir, .up :: rest => advance tree dir.dropLast rest
  | dir, .name n :: rest =>
      match tree.get (dir ++ [n]) with
      | none => .stuck
      | some .dir => advance tree (dir ++ [n]) rest
      | some (.file _) => if rest = [] then .arrived (dir ++ [n]) else .stuck
      | some (.link target) => .link dir target rest

def Target.base (target : Target ν) (dir : List ν) : List ν :=
  if target.absolute then [] else dir

/-- The physical path of the object a path names, following links; `fuel` is the
number of links that may be followed. -/
def resolve (tree : LinkTree ν) : ℕ → List ν → List (Comp ν) → Option (List ν)
  | 0, dir, comps =>
      match tree.advance dir comps with
      | .arrived path => some path
      | _ => none
  | fuel + 1, dir, comps =>
      match tree.advance dir comps with
      | .arrived path => some path
      | .link dir target rest =>
          resolve tree fuel (Target.base target dir) (target.comps ++ rest)
      | .stuck => none

section Append

variable {tree : LinkTree ν} {dir path : List ν}

theorem advance_append (arrived : tree.advance dir comps = .arrived path)
    (isDir : tree.get path = some .dir) (rest : List (Comp ν)) :
    tree.advance dir (comps ++ rest) = tree.advance path rest := by
  induction comps generalizing dir with
  | nil =>
    cases arrived
    rfl
  | cons comp comps ih =>
    cases comp with
    | up => exact ih arrived
    | name n =>
      rw [cons_append]
      simp only [advance] at arrived ⊢
      split at arrived
      · contradiction
      · exact ih arrived
      · rename_i found
        split at arrived
        · cases arrived
          rw [found] at isDir
          cases isDir
        · contradiction
      · contradiction

theorem advance_append_link {dir' : List ν} {target : Target ν} {left : List (Comp ν)}
    (met : tree.advance dir comps = .link dir' target left) (rest : List (Comp ν)) :
    tree.advance dir (comps ++ rest) = .link dir' target (left ++ rest) := by
  induction comps generalizing dir with
  | nil => contradiction
  | cons comp comps ih =>
    cases comp with
    | up => exact ih met
    | name n =>
      rw [cons_append]
      simp only [advance] at met ⊢
      split at met
      · contradiction
      · exact ih met
      · split at met <;> contradiction
      · cases met
        rfl

theorem resolve_append (resolved : tree.resolve fuel dir comps = some path)
    (isDir : tree.get path = some .dir) : ∃ left, left ≤ fuel ∧ ∀ rest,
      tree.resolve fuel dir (comps ++ rest) = tree.resolve left path rest := by
  induction fuel generalizing dir comps with
  | zero =>
    refine ⟨0, le_rfl, fun rest => ?_⟩
    rw [resolve] at resolved
    split at resolved
    · rename_i arrived
      cases resolved
      rw [resolve, resolve, advance_append arrived isDir]
    · contradiction
  | succ fuel ih =>
    rw [resolve] at resolved
    split at resolved
    · rename_i arrived
      cases resolved
      refine ⟨fuel + 1, le_rfl, fun rest => ?_⟩
      rw [resolve, resolve, advance_append arrived isDir]
    · rename_i met
      obtain ⟨left, fewer, eq⟩ := ih resolved
      refine ⟨left, Nat.le_succ_of_le fewer, fun rest => ?_⟩
      rw [resolve, advance_append_link met, ← eq, append_assoc]
    · contradiction

theorem resolve_name (found : tree.get (dir ++ [n]) = some node)
    (noLink : ∀ target, node ≠ .link target) (fuel : ℕ) :
    tree.resolve fuel dir [.name n] = some (dir ++ [n]) := by
  have arrived : tree.advance dir [.name n] = .arrived (dir ++ [n]) := by
    cases node with
    | dir => simp only [advance, found]
    | file inode => simp only [advance, found, if_true]
    | link target => exact absurd rfl (noLink target)
  cases fuel <;> simp only [resolve, arrived]

theorem isSome_of_resolve_name (resolved : tree.resolve fuel dir [.name n] = some path) :
    (tree.get (dir ++ [n])).isSome = true := by
  cases found : tree.get (dir ++ [n]) with
  | none => cases fuel <;> simp [resolve, advance, found] at resolved
  | some node => rfl

end Append

def staysWithin : ℕ → List (Comp ν) → Bool
  | _, [] => true
  | _, .name _ :: rest => rest.all (· ≠ .up)
  | 0, .up :: _ => false
  | depth + 1, .up :: rest => staysWithin depth rest

/-- A link to `target` in the directory `dir` does not lead out of `root`: it goes
down from `root`, or up from `dir` no further than to `root`. -/
def Fits (root dir : List ν) (target : Target ν) : Prop :=
  if target.absolute then
    root.map .name <+: target.comps ∧ ∀ comp ∈ target.comps, comp ≠ .up
  else root <+: dir ∧ staysWithin (dir.length - root.length) target.comps = true

instance (root dir : List ν) (target : Target ν) : Decidable (Fits root dir target) :=
  inferInstanceAs (Decidable (if target.absolute = true then _ ∧ _ else _ ∧ _))

structure Confined (root : List ν) (tree : LinkTree ν) : Prop where
  above : ∀ {path}, path <+: root → path ≠ root → tree.get path = some .dir
  links : ∀ {dir n target}, root <+: dir ++ [n] → tree.get (dir ++ [n]) = some (.link target) →
    Fits root dir target
  inodes : ∀ {path path' inode}, tree.get path = some (.file inode) →
    tree.get path' = some (.file inode) → root <+: path → root <+: path'

def Progress.Within (root : List ν) : Progress ν → Prop
  | .arrived path => root <+: path
  | .link dir target rest => Fits root dir target ∧ ∀ comp ∈ rest, comp ≠ .up
  | .stuck => True

section Within

variable {root dir path : List ν} {tree : LinkTree ν} {rest : List (Comp ν)} {depth : ℕ}

theorem staysWithin_of_names (names : ∀ comp ∈ comps, comp ≠ .up) (depth : ℕ) :
    staysWithin depth comps = true := by
  cases comps with
  | nil => simp [staysWithin]
  | cons comp rest =>
    cases comp with
    | up => exact absurd rfl (names _ (.head _))
    | name n =>
      rw [staysWithin, all_eq_true]
      intro comp later
      exact decide_eq_true (names comp (.tail _ later))

theorem names_of_staysWithin (within : staysWithin depth (.name n :: rest) = true) :
    ∀ comp ∈ rest, comp ≠ .up := by
  rw [staysWithin, all_eq_true] at within
  exact fun comp member => of_decide_eq_true (within comp member)

theorem staysWithin_append (first : staysWithin depth comps)
    (names : ∀ comp ∈ rest, comp ≠ .up) : staysWithin depth (comps ++ rest) = true := by
  induction depth, comps using staysWithin.induct with
  | case1 depth => exact staysWithin_of_names names depth
  | case2 depth n comps =>
    refine staysWithin_of_names ?_ depth
    have early := names_of_staysWithin first
    intro comp member
    rcases mem_cons.mp member with rfl | later
    · simp
    · rcases mem_append.mp later with here | there
      · exact early comp here
      · exact names comp there
  | case3 comps => contradiction
  | case4 depth comps ih => exact ih first

omit [DecidableEq ν] in
theorem prefix_dropLast (inside : root <+: dir) (deeper : 0 < dir.length - root.length) :
    root <+: dir.dropLast := by
  rw [dropLast_eq_take]
  exact prefix_take_iff.mpr ⟨inside, by omega⟩

theorem advance_name_within (confined : Confined root tree) (below : root <+: dir ++ [n])
    (names : ∀ comp ∈ rest, comp ≠ .up) (further : (tree.advance (dir ++ [n]) rest).Within root) :
    (tree.advance dir (.name n :: rest)).Within root := by
  cases found : tree.get (dir ++ [n]) with
  | none => simp only [advance, found, Progress.Within]
  | some node =>
    cases node with
    | dir =>
      simp only [advance, found]
      exact further
    | file inode =>
      simp only [advance, found]
      split
      · exact below
      · trivial
    | link target =>
      simp only [advance, found]
      exact ⟨confined.links below found, names⟩

theorem advance_within (confined : Confined root tree) (inside : root <+: dir)
    (within : staysWithin (dir.length - root.length) comps) :
    (tree.advance dir comps).Within root := by
  induction comps generalizing dir with
  | nil => exact inside
  | cons comp rest ih =>
    cases comp with
    | up =>
      cases depth : dir.length - root.length with
      | zero =>
        rw [depth] at within
        contradiction
      | succ n =>
        have parent := prefix_dropLast inside (by omega)
        refine ih parent ?_
        rw [depth] at within
        rwa [length_dropLast, show dir.length - 1 - root.length = n by omega]
    | name n =>
      have names := names_of_staysWithin within
      have below : root <+: dir ++ [n] := inside.trans (prefix_append _ _)
      exact advance_name_within confined below names
        (ih below (staysWithin_of_names names _))

def Dirs (tree : LinkTree ν) (dir names : List ν) : Prop :=
  ∀ first, first <+: names → first ≠ [] → tree.get (dir ++ first) = some .dir

theorem Dirs.head (dirs : Dirs tree dir (n :: names)) : tree.get (dir ++ [n]) = some .dir :=
  dirs [n] (by simp) (by simp)

theorem Dirs.tail (dirs : Dirs tree dir (n :: names)) : Dirs tree (dir ++ [n]) names := by
  intro first shorter _
  rw [append_assoc]
  exact dirs ([n] ++ first) (by simpa using shorter) (by simp)

theorem Confined.dirs {parent : List ν} {last : ν} (confined : Confined root tree)
    (upper : parent ++ [last] <+: root) : Dirs tree [] parent := by
  intro first shorter _
  refine confined.above (shorter.trans ((prefix_append _ _).trans upper)) ?_
  rintro rfl
  have longer := upper.length_le.trans shorter.length_le
  rw [length_append, length_singleton] at longer
  omega

theorem advance_dirs {names : List ν} (dirs : Dirs tree dir names) :
    tree.advance dir (names.map .name ++ rest) = tree.advance (dir ++ names) rest := by
  induction names generalizing dir with
  | nil => simp
  | cons n names ih =>
    rw [map_cons, cons_append]
    simp only [advance, dirs.head]
    rw [ih dirs.tail, append_assoc, singleton_append]

theorem resolve_dirs {names : List ν} (dirs : Dirs tree dir names) (fuel : ℕ) :
    tree.resolve fuel dir (names.map .name) = some (dir ++ names) := by
  have arrived := @advance_dirs _ _ dir tree [] _ dirs
  rw [append_nil] at arrived
  cases fuel <;> simp only [resolve, arrived, advance]

theorem advance_top_within (confined : Confined root tree) (names : ∀ comp ∈ rest, comp ≠ .up) :
    (tree.advance [] (root.map .name ++ rest)).Within root := by
  rcases eq_nil_or_concat' root with rfl | ⟨parent, last, rfl⟩
  · exact advance_within confined nil_prefix (staysWithin_of_names names _)
  · rw [map_append, append_assoc, advance_dirs (confined.dirs (prefix_refl _))]
    refine advance_name_within confined (prefix_refl _) names ?_
    exact advance_within confined (prefix_refl _) (staysWithin_of_names names _)

theorem Fits.advance_within {target : Target ν} (fits : Fits root dir target)
    (confined : Confined root tree) (names : ∀ comp ∈ rest, comp ≠ .up) :
    (tree.advance (Target.base target dir) (target.comps ++ rest)).Within root := by
  unfold Fits at fits
  split at fits
  · rename_i absolute
    obtain ⟨⟨more, comps⟩, plain⟩ := fits
    rw [← comps] at plain ⊢
    rw [Target.base, if_pos absolute, append_assoc]
    refine advance_top_within confined fun comp member => ?_
    rcases mem_append.mp member with early | late
    · exact plain comp (mem_append_right _ early)
    · exact names comp late
  · rename_i relative
    rw [Target.base, if_neg relative]
    exact LinkTree.advance_within confined fits.1 (staysWithin_append fits.2 names)

theorem resolve_within (confined : Confined root tree)
    (start : (tree.advance dir comps).Within root)
    (resolved : tree.resolve fuel dir comps = some path) : root <+: path := by
  induction fuel generalizing dir comps with
  | zero =>
    rw [resolve] at resolved
    split at resolved
    · rename_i arrived
      cases resolved
      rwa [arrived] at start
    · contradiction
  | succ fuel ih =>
    rw [resolve] at resolved
    split at resolved
    · rename_i arrived
      cases resolved
      rwa [arrived] at start
    · rename_i dir' target rest met
      rw [met] at start
      exact ih (start.1.advance_within confined start.2) resolved
    · contradiction

theorem resolve_name_within (confined : Confined root tree) (below : root <+: dir ++ [n])
    (resolved : tree.resolve fuel dir [.name n] = some path) : root <+: path := by
  have further : (tree.advance (dir ++ [n]) []).Within root := below
  exact resolve_within confined (advance_name_within confined below (by simp) further) resolved

theorem resolve_top_within (confined : Confined root tree)
    (resolved : tree.resolve fuel [] ((root ++ names).map .name) = some path) : root <+: path := by
  rw [map_append] at resolved
  exact resolve_within confined (advance_top_within confined (by simp)) resolved

end Within

def Admitted (root : List ν) (tree : LinkTree ν) (dir : List ν) : Node ν → Prop
  | .dir => True
  | .file inode => ∀ path, tree.get path = some (.file inode) → root <+: path
  | .link target => Fits root dir target

section Changes

variable {root dir path : List ν} {tree : LinkTree ν}

theorem get_of_get_remove (found : (tree.remove path).get other = some node) :
    tree.get other = some node := by
  by_cases same : other = path
  · subst same
    simp at found
  · rwa [get_remove_of_ne same] at found

omit [DecidableEq ν] in
theorem ne_of_above (below : root <+: path) (above : other <+: root) (different : other ≠ root) :
    other ≠ path := by
  rintro rfl
  exact different (above.eq_of_length_le below.length_le)

theorem Confined.remove (confined : Confined root tree) (below : root <+: path) :
    Confined root (tree.remove path) where
  above := by
    intro other above different
    rw [get_remove_of_ne (ne_of_above below above different)]
    exact confined.above above different
  links := fun inside found => confined.links inside (get_of_get_remove found)
  inodes := fun found found' => confined.inodes (get_of_get_remove found) (get_of_get_remove found')

theorem Confined.put (confined : Confined root tree) (below : root <+: dir ++ [n])
    (admitted : Admitted root tree dir node) : Confined root (tree.put (dir ++ [n]) node) where
  above := by
    intro other above different
    rw [get_put_of_ne (ne_of_above below above different)]
    exact confined.above above different
  links := by
    intro dir' n' target inside found
    by_cases same : dir' ++ [n'] = dir ++ [n]
    · obtain ⟨rfl, _⟩ := append_inj' same rfl
      rw [same, get_put_self] at found
      cases found
      exact admitted
    · rw [get_put_of_ne same] at found
      exact confined.links inside found
  inodes := by
    intro path path' inode found found' inside
    by_cases there : path' = dir ++ [n]
    · rw [there]
      exact below
    rw [get_put_of_ne there] at found'
    by_cases here : path = dir ++ [n]
    · rw [here, get_put_self] at found
      cases found
      exact admitted path' found'
    · rw [get_put_of_ne here] at found
      exact confined.inodes found found' inside

theorem advance_remove (tree : LinkTree ν) (path dir : List ν) (comps : List (Comp ν)) :
    (tree.remove path).advance dir comps = .stuck ∨
      (tree.remove path).advance dir comps = tree.advance dir comps := by
  induction comps generalizing dir with
  | nil => exact .inr rfl
  | cons comp rest ih =>
    cases comp with
    | up => exact ih dir.dropLast
    | name n =>
      by_cases same : dir ++ [n] = path
      · simp [advance, same]
      simp only [advance, get_remove_of_ne same]
      split
      · exact .inl rfl
      · exact ih (dir ++ [n])
      · exact .inr rfl
      · exact .inr rfl

theorem resolve_of_resolve_remove {there : List ν}
    (resolved : (tree.remove path).resolve fuel dir comps = some there) :
    tree.resolve fuel dir comps = some there := by
  induction fuel generalizing dir comps with
  | zero =>
    rcases advance_remove tree path dir comps with stuck | same
    · simp [resolve, stuck] at resolved
    · rw [resolve, same] at resolved
      exact resolved
  | succ fuel ih =>
    rcases advance_remove tree path dir comps with stuck | same
    · simp [resolve, stuck] at resolved
    rw [resolve, same] at resolved
    rw [resolve]
    split at resolved
    · exact resolved
    · exact ih resolved
    · contradiction

end Changes

end LinkTree

end NzbDownloader.Lib
