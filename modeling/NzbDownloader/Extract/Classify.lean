import NzbDownloader.Util.Name

/-!
# Which files are archive volumes

`classify` of `extract/extract.c` recognises a volume of an archive by its name and yields
the set it belongs to and its place in the set.
-/

namespace NzbDownloader.Extract

open Util

inductive ArchiveKind
  | rar
  | sevenz
  | zip
  deriving DecidableEq, Repr

structure ArchiveId where
  kind : ArchiveKind
  base : Name
  volume : ℕ
  deriving DecidableEq, Repr

def setBase (name : Name) : Name :=
  name.take 399

def allDigits (name : Name) : Bool :=
  name ≠ [] ∧ name.all Char.isDigit

def extension (name : Name) : Name :=
  name.rtakeWhile (· ≠ '.')

def beforeExtension (name : Name) : Name :=
  (name.rdropWhile (· ≠ '.')).dropLast

def continuation (name : Name) : Option ArchiveId :=
  if '.' ∈ name then
    match extension name with
    | [] => none
    | letter :: digits =>
        if letter.isAlpha ∧ 'r' ≤ letter.toLower ∧ letter.toLower ≤ 'z' ∧ allDigits digits then
          some ⟨.rar, setBase (beforeExtension name),
            1 + (letter.toLower.toNat - 'r'.toNat) * 100 + strtol digits⟩
        else none
  else none

def classify (name : Name) : Option ArchiveId :=
  if hasSuffixCi name ".rar".toList then
    let stem := name.rdrop 4
    if endDigits stem ≠ [] ∧ hasSuffixCi (beforeDigits stem) ".part".toList then
      some ⟨.rar, setBase ((beforeDigits stem).rdrop 5), strtol (endDigits stem)⟩
    else some ⟨.rar, setBase stem, 0⟩
  else
    match continuation name with
    | some id => some id
    | none =>
        if hasSuffixCi name ".7z".toList then some ⟨.sevenz, setBase (name.rdrop 3), 0⟩
        else if endDigits name ≠ [] ∧ hasSuffixCi (beforeDigits name) ".7z.".toList then
          some ⟨.sevenz, setBase ((beforeDigits name).rdrop 4), strtol (endDigits name)⟩
        else if hasSuffixCi name ".zip".toList then some ⟨.zip, setBase (name.rdrop 4), 0⟩
        else none

def skipExt : List Name :=
  [".par2".toList, ".rar".toList, ".r00".toList, ".7z".toList, ".zip".toList]

def isSidecarFile (name : Name) : Bool :=
  skipExt.any (hasSuffixCi name)

example : (["show.part02.rar", "show.R01", "show.7z.003", "show.s00", "show.mkv"].map fun name =>
    (classify name.toList).map ArchiveId.volume) =
      [some 2, some 2, some 3, some 101, none] := by
  decide

theorem continuation_of_r00 {name : Name} (ends : hasSuffixCi name ".r00".toList) :
    (continuation name).isSome = true := by
  obtain ⟨front, back, rfl, same⟩ := hasSuffixCi_iff.mp ends
  obtain ⟨dot, letter, first, second, rfl⟩ : ∃ dot letter first second,
      back = [dot, letter, first, second] := by
    match back, congrArg List.length same with
    | [dot, letter, first, second], _ => exact ⟨dot, letter, first, second, rfl⟩
  rw [show lower ".r00".toList = ['.', 'r', '0', '0'] by decide] at same
  simp only [lower, List.map_cons, List.map_nil, List.cons.injEq, and_true] at same
  obtain ⟨isDot, isR, isFirst, isSecond⟩ := same
  cases eq_of_toLower isDot (by decide)
  cases eq_of_toLower isFirst (by decide)
  cases eq_of_toLower isSecond (by decide)
  have isLetter : letter = 'r' ∨ letter = 'R' := by
    rcases toNat_of_toLower isR with same | ⟨_, _, shifted⟩
    · exact .inl same
    · exact .inr (Char.toNat_inj.mp (Nat.add_right_cancel shifted))
  have noDot : letter ≠ '.' := by
    rcases isLetter with rfl | rfl <;> decide
  have ext : extension (front ++ ['.', letter, '0', '0']) = [letter, '0', '0'] := by
    simp [extension, List.rtakeWhile, noDot]
  rw [continuation, if_pos (by simp), ext]
  rcases isLetter with rfl | rfl <;> simp [allDigits]

theorem of_classify_eq_none {name : Name} (plain : classify name = none) :
    ¬hasSuffixCi name ".rar".toList ∧ continuation name = none ∧
      ¬hasSuffixCi name ".7z".toList ∧ ¬hasSuffixCi name ".zip".toList = true := by
  unfold classify at plain
  split at plain
  · dsimp only at plain
    split at plain <;> contradiction
  rename_i notRar
  split at plain
  · contradiction
  rename_i noContinuation
  split at plain
  · contradiction
  rename_i notSevenz
  split at plain
  · contradiction
  split at plain
  · contradiction
  rename_i notZip
  exact ⟨notRar, noContinuation, notSevenz, notZip⟩

theorem isSidecarFile_iff {name : Name} (plain : classify name = none) :
    isSidecarFile name = true ↔ hasSuffixCi name ".par2".toList = true := by
  obtain ⟨notRar, noContinuation, notSevenz, notZip⟩ := of_classify_eq_none plain
  simp only [isSidecarFile, skipExt, List.any_cons, List.any_nil, Bool.or_false, Bool.or_eq_true]
  constructor
  · rintro (par2 | rar | r00 | sevenz | zip)
    · exact par2
    · exact absurd rar notRar
    · have continues := continuation_of_r00 r00
      rw [noContinuation] at continues
      contradiction
    · exact absurd sevenz notSevenz
    · exact absurd zip notZip
  · exact .inl

end NzbDownloader.Extract
