import NzbDownloader.Lib.LinkTree
import NzbDownloader.Lib.Transition
import NzbDownloader.Util.Name
import NzbDownloader.Storage.Layout

/-!
# Extracting one archive

The loop of `extract_one_archive` over the entries of an archive.  The library that writes
them, `archive_write_disk`, is not part of the repository: it is a parameter, and what the
results assume of it is stated field by field in `DiskWriter.FollowsLinks`.  Each step leaves
a record of what it has touched.
-/

namespace NzbDownloader.Extract

open Util Storage Lib LinkTree

abbrev Tree := LinkTree Name

inductive EntryKind
  | regular
  | directory
  | symlink (target : Name)
  | hardlink (target : Name)
  deriving DecidableEq, Repr

/-- An entry of the archive, and whether `archive_entry_size` is positive. -/
structure Entry where
  pathname : Option Name
  kind : EntryKind
  hasData : Bool
  deriving DecidableEq, Repr

/-- `dest_dir`, and how much of an entry's path `full_path` has room for after it. -/
structure Destination where
  dir : Path
  room : ℕ

/-- A name that was made, replaced or removed, or an object that was written or whose mode
was set. -/
inductive Effect
  | name (path : Path)
  | object (path : Path)
  deriving DecidableEq, Repr

def isSafeRelpath : Option Name → Bool
  | none => false
  | some path => path ≠ [] ∧ path.head? ≠ some '/' ∧
      (path.splitOn '/').all fun segment => segment ≠ [] ∧ segment ≠ ['.', '.']

example : ["a/b", "./a", "..a/b", "/a", "a//b", "a/", "a/../b", ""].map
    (fun path => isSafeRelpath (some path.toList)) =
      [true, true, true, false, false, false, false, false] := by
  decide

def components (path : Name) : List Name :=
  (path.splitOn '/').filter fun segment => segment ≠ [] ∧ segment ≠ ['.']

def parseTarget (text : Name) : Target Name where
  absolute := text.head? = some '/'
  comps := (components text).map fun segment =>
    if segment = ['.', '.'] then .up else .name segment

/-- The name at `path` comes to stand for `node`, or is removed. -/
structure Change where
  path : Path
  node : Option (Node Name)
  deriving DecidableEq, Repr

def Change.apply (tree : Tree) (change : Change) : Tree :=
  match change.node with
  | none => tree.remove change.path
  | some node => tree.put change.path node

/-- What a call of `archive_write_header` has done to the directories above the last
component of the path and at this component, in this order, and the object that takes the
data if the call returns `ARCHIVE_OK` or `ARCHIVE_WARN`. -/
structure Header where
  parents : List Change
  own : List Change
  object : Option Path

/-- The library: `archive_write_header`, whose answer may differ from call to call, and the
objects whose modes are set by `archive_write_close`, given the paths of all entries. -/
structure DiskWriter where
  header : ℕ → Tree → List Name → EntryKind → Header
  close : Tree → List (List Name) → List Path

/-- The components before the last one lead to a directory, links followed, and `path` is
the last name in it. -/
def Leads (tree : Tree) (names : List Name) (path : Path) : Prop :=
  ∃ init n fuel dir, names = init ++ [n] ∧ tree.resolve fuel [] (init.map .name) = some dir ∧
    path = dir ++ [n]

/-- Every change meets the condition in the tree that it finds. -/
def EachChange (condition : Tree → Change → Prop) : Tree → List Change → Prop
  | _, [] => True
  | tree, change :: rest =>
      condition tree change ∧ EachChange condition (change.apply tree) rest

/-- A directory above the last component is made where there is none. -/
def MakesParent (names : List Name) (tree : Tree) (change : Change) : Prop :=
  ∃ first, first <+: names ∧ first ≠ names ∧ Leads tree first change.path ∧
    tree.get change.path ≠ some .dir ∧ ∀ node ∈ change.node, node = .dir

/-- The object that the text of a hard link names, links followed except for the last
component. -/
def Names (cwd : Path) (tree : Tree) (target : Target Name) (node : Node Name) : Prop :=
  ∃ init n fuel dir, target.comps = init ++ [.name n] ∧
    tree.resolve fuel (Target.base target cwd) init = some dir ∧
    tree.get (dir ++ [n]) = some node

/-- What an entry makes: a new file, a directory, or a link as the entry gives it. -/
def AsGiven (cwd : Path) (tree : Tree) (node : Node Name) : EntryKind → Prop
  | .regular => ∃ inode, node = .file inode ∧ ∀ path, tree.get path ≠ some (.file inode)
  | .directory => node = .dir
  | .symlink target => node = .link (parseTarget target)
  | .hardlink target => Names cwd tree (parseTarget target) node

def Header.before (tree : Tree) (header : Header) : Tree :=
  header.parents.foldl Change.apply tree

def Header.after (tree : Tree) (header : Header) : Tree :=
  header.own.foldl Change.apply (header.before tree)

/-- The assumptions on the library, for the options that `extract_one_archive` sets: links
that exist are followed in the components before the last one, and links are made as given.
It may refuse any entry, and stop anywhere in between. -/
structure DiskWriter.FollowsLinks (writer : DiskWriter) (cwd : Path) : Prop where
  /-- `ARCHIVE_EXTRACT_SECURE_NODOTDOT`. -/
  noDotDot : ∀ k tree names kind, ['.', '.'] ∈ names →
    writer.header k tree names kind = ⟨[], [], none⟩
  parents : ∀ k tree names kind,
    EachChange (MakesParent names) tree (writer.header k tree names kind).parents
  own : ∀ k tree names kind, EachChange
    (fun tree change => Leads tree names change.path ∧
      ∀ node ∈ change.node, AsGiven cwd tree node kind)
    ((writer.header k tree names kind).before tree) (writer.header k tree names kind).own
  object : ∀ k tree names kind, ∀ path ∈ (writer.header k tree names kind).object,
    Leads ((writer.header k tree names kind).before tree) names path
  close : ∀ tree paths, ∀ path ∈ writer.close tree paths, ∃ names ∈ paths,
    ['.', '.'] ∉ names ∧ ∃ fuel, tree.resolve fuel [] (names.map .name) = some path

def fullPath (dest : Destination) (pathname : Name) : List Name :=
  dest.dir ++ components (pathname.take dest.room)

structure Extraction where
  tree : Tree
  effects : List Effect
  seen : ℕ
  written : ℕ
  failed : Bool
  paths : List (List Name)
  deriving DecidableEq, Repr

def Extraction.start (tree : Tree) : Extraction :=
  ⟨tree, [], 0, 0, false, []⟩

/-- The next entry, with the outcome of `copy_data` and the number of links that `chmod`
follows, or the end of the loop. -/
inductive ExtractAct
  | entry (entry : Entry) (copies : Bool) (maxLinks : ℕ)
  | close
  deriving DecidableEq, Repr

def isFile (tree : Tree) (path : Path) : Bool :=
  match tree.get path with
  | some (.file _) => true
  | _ => false

def chmodEffect (maxLinks : ℕ) (tree : Tree) (names : List Name) : List Effect :=
  ((tree.resolve maxLinks [] (names.map .name)).map Effect.object).toList

/-- `copy_data` and `archive_write_finish_entry` write the object and set its mode. -/
def objectEffect (tree : Tree) (path : Path) : List Effect :=
  if isFile tree path then [.object path] else []

def Header.effects (header : Header) : List Effect :=
  (header.parents ++ header.own).map fun change => .name change.path

def extractStep (writer : DiskWriter) (dest : Destination) (e : Extraction) :
    ExtractAct → Option Extraction
  | .close => some { e with effects := (writer.close e.tree e.paths).map Effect.object }
  | .entry entry copies maxLinks =>
      let skipped : Extraction := { e with effects := [], seen := e.seen + 1 }
      if e.failed then none
      else if isSafeRelpath entry.pathname = false then some skipped
      else
        let names := fullPath dest (entry.pathname.getD [])
        let header := writer.header e.seen e.tree names entry.kind
        let tree := header.after e.tree
        let entered := { skipped with
          tree := tree, effects := header.effects, paths := names :: e.paths }
        match header.object with
        | none => some entered
        | some path =>
            let wrote := objectEffect tree path ++ header.effects
            if entry.hasData && !copies then
              some { entered with effects := wrote, failed := true }
            else
              some { entered with
                effects := chmodEffect maxLinks tree names ++ wrote, written := e.written + 1 }

end NzbDownloader.Extract
