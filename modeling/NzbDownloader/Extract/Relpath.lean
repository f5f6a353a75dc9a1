import NzbDownloader.Extract.Archive

/-!
# Paths of archive entries, lexically

The loop of `is_safe_relpath` against the splitting of the path, and where
`full_path`, cut by its buffer, leads when only its text is looked at.
-/

namespace NzbDownloader.Extract

open Util List

def segmentLoop (seg : Name) : Bool :=
  if (seg.takeWhile (· ≠ '/')).length = 0 then false
  else if seg.takeWhile (· ≠ '/') = ['.', '.'] then false
  else
    match _slash : seg.dropWhile (· ≠ '/') with
    | [] => true
    | _ :: rest => segmentLoop rest
termination_by seg.length
decreasing_by
  have shorter := (seg.dropWhile_suffix (· ≠ '/')).length_le
  rw [_slash, length_cons] at shorter
  omega

def relpathLoop : Option Name → Bool
  | none => false
  | some path => path ≠ [] && path.head? ≠ some '/' && segmentLoop path

def fullPathText (destDir pathname : Name) : Name :=
  (destDir ++ '/' :: pathname).take 1199

/-- What is left of a path without empty components, `.` and, where they can be
removed, `..`. -/
structure Lexical where
  absolute : Bool
  ups : ℕ
  names : List Name
  deriving DecidableEq, Repr

open Lexical

namespace Lexical

def step (path : Lexical) (segment : Name) : Lexical :=
  if segment = [] ∨ segment = ['.'] then path
  else if segment = ['.', '.'] then
    if path.names ≠ [] then { path with names := path.names.dropLast }
    else if path.absolute then path
    else { path with ups := path.ups + 1 }
  else { path with names := path.names ++ [segment] }

def Below (path top : Lexical) : Prop :=
  path.absolute = top.absolute ∧ path.ups = top.ups ∧ top.names <+: path.names
  deriving Decidable

def IsRoot (path : Lexical) : Prop :=
  path.absolute = true ∧ path.names = []
  deriving Decidable

end Lexical

def normalise (path : Name) : Lexical :=
  (path.splitOn '/').foldl step ⟨path.head? = some '/', 0, []⟩

theorem splitOn_slash (seg : Name) :
    seg.splitOn '/' = seg.takeWhile (· ≠ '/') ::
      match seg.dropWhile (· ≠ '/') with
      | [] => []
      | _ :: rest => rest.splitOn '/' := by
  have whole := takeWhile_append_dropWhile (p := (· ≠ '/')) (l := seg)
  have plain : ∀ c ∈ seg.takeWhile (· ≠ '/'), (c == '/') = false := fun c member => by
    simpa using mem_takeWhile_imp member
  rcases slash : seg.dropWhile (· ≠ '/') with _ | ⟨c, rest⟩
  · rw [slash, append_nil] at whole
    rw [whole] at plain ⊢
    exact splitOnP_eq_singleton plain
  · have isSlash : c = '/' := by
      have stopped := head?_dropWhile_not (· ≠ '/') seg
      rw [slash] at stopped
      simpa using stopped
    rw [slash, isSlash] at whole
    conv_lhs => rw [← whole]
    exact splitOnP_append_cons_of_forall_mem plain _ (by decide) rest

theorem segmentLoop_iff (seg : Name) :
    segmentLoop seg = true ↔ ∀ c ∈ seg.splitOn '/', c ≠ [] ∧ c ≠ ['.', '.'] := by
  fun_induction segmentLoop seg with
  | case1 seg empty =>
    rw [splitOn_slash, forall_mem_cons]
    exact iff_of_false Bool.false_ne_true fun all => all.1.1 (length_eq_zero_iff.mp empty)
  | case2 seg filled dots =>
    rw [splitOn_slash, forall_mem_cons]
    exact iff_of_false Bool.false_ne_true fun all => all.1.2 dots
  | case3 seg filled name slash =>
    rw [splitOn_slash, slash, forall_mem_singleton]
    exact iff_of_true rfl ⟨mt length_eq_zero_iff.mpr filled, name⟩
  | case4 seg filled name c rest slash ih =>
    rw [splitOn_slash seg, slash, forall_mem_cons, ih]
    exact ⟨fun others => ⟨⟨mt length_eq_zero_iff.mpr filled, name⟩, others⟩, And.right⟩

theorem relpathLoop_some (path : Name) :
    relpathLoop (some path) = isSafeRelpath (some path) := by
  rw [Bool.eq_iff_iff]
  simp [relpathLoop, isSafeRelpath, segmentLoop_iff, and_assoc]

theorem splitOn_append (a b : Name) :
    (a ++ '/' :: b).splitOn '/' = a.splitOn '/' ++ b.splitOn '/' :=
  splitOnP_append_cons a b (by decide)

theorem splitOn_of_not_mem {a : Name} (plain : '/' ∉ a) : a.splitOn '/' = [a] :=
  splitOnP_eq_singleton fun _ member => beq_false_of_ne fun slash => plain (slash ▸ member)

theorem exists_segments (a b : Name) : ∃ init last, a.splitOn '/' = init ++ [last] ∧
    ∀ c ∈ init, c ∈ (a ++ b).splitOn '/' := by
  by_cases slash : '/' ∈ a
  · obtain ⟨y, x, reversed, plain⟩ := eq_append_cons_of_mem (mem_reverse.mpr slash)
    have whole : a = x.reverse ++ '/' :: y.reverse := by
      rw [← reverse_reverse a, reversed]
      simp
    refine ⟨x.reverse.splitOn '/', y.reverse, ?_, fun c member => ?_⟩
    · rw [whole, splitOn_append, splitOn_of_not_mem (mt mem_reverse.mp plain)]
    · rw [whole, append_assoc, cons_append, splitOn_append]
      exact mem_append_left _ member
  · exact ⟨[], a, splitOn_of_not_mem slash, by simp⟩

theorem foldl_step {init : List Name} (names : ∀ c ∈ init, c ≠ [] ∧ c ≠ ['.', '.'])
    (path : Lexical) : init.foldl step path =
      { path with names := path.names ++ init.filter (· ≠ ['.']) } := by
  induction init generalizing path with
  | nil => simp
  | cons c init ih =>
    obtain ⟨⟨filled, name⟩, rest⟩ := forall_mem_cons.mp names
    rw [foldl_cons, ih rest]
    by_cases dot : c = ['.']
    · simp [step, dot]
    · simp [step, dot, filled, name]

theorem absolute_foldl (segments : List Name) (path : Lexical) :
    (segments.foldl step path).absolute = path.absolute := by
  induction segments generalizing path with
  | nil => rfl
  | cons c segments ih =>
    rw [foldl_cons, ih, step]
    split_ifs <;> rfl

variable {destDir : Name}

theorem fullPathText_eq (short : destDir.length < 900) (pathname : Name) :
    fullPathText destDir pathname = destDir ++ '/' :: pathname.take (1198 - destDir.length) := by
  rw [fullPathText, take_append, take_of_length_le (by omega),
    show 1199 - destDir.length = 1198 - destDir.length + 1 by omega, take_succ_cons]

theorem normalise_append (nonempty : destDir ≠ []) (path : Name) :
    normalise (destDir ++ '/' :: path) =
      (path.splitOn '/').foldl step (normalise destDir) := by
  have head : (destDir ++ '/' :: path).head? = destDir.head? := head?_append_of_ne_nil _ nonempty
  rw [normalise, splitOn_append, foldl_append, head]
  rfl

theorem below_step_iff (path : Lexical) (names : List Name) (last : Name) :
    (step { path with names := path.names ++ names } last).Below path ↔
      path.IsRoot ∨ ¬(last = ['.', '.'] ∧ names = []) := by
  have longer : (mk path.absolute path.ups (path.names ++ names)).Below path :=
    ⟨rfl, rfl, prefix_append _ _⟩
  by_cases skipped : last = [] ∨ last = ['.']
  · rw [step, if_pos skipped]
    refine iff_of_true longer (.inr fun up => ?_)
    rw [up.1] at skipped
    simp at skipped
  rw [step, if_neg skipped]
  by_cases up : last = ['.', '.']
  swap
  · rw [if_neg up]
    exact iff_of_true ⟨rfl, rfl, by simp⟩ (.inr fun both => up both.1)
  rw [if_pos up]
  by_cases none : names = []
  swap
  · rw [if_pos (append_ne_nil_of_right_ne_nil _ none), dropLast_append_of_ne_nil none]
    exact iff_of_true ⟨rfl, rfl, prefix_append _ _⟩ (.inr fun both => none both.2)
  subst none
  rw [append_nil]
  by_cases top : path.names = []
  swap
  · rw [if_pos top]
    refine iff_of_false (fun below => ?_) (by simp [Lexical.IsRoot, top, up])
    have shorter : path.names.length ≤ path.names.dropLast.length := below.2.2.length_le
    have positive := length_pos_iff.mpr top
    rw [length_dropLast] at shorter
    omega
  rw [if_neg (not_not.mpr top)]
  cases absolute : path.absolute with
  | true => exact iff_of_true ⟨absolute.symm, rfl, top ▸ nil_prefix⟩ (.inl ⟨absolute, top⟩)
  | false =>
    exact iff_of_false (fun below => Nat.succ_ne_self _ below.2.1)
      (by simp [Lexical.IsRoot, absolute, up])

def dotsPath : Name :=
  (replicate 593 ['.', '/']).flatten ++ ['.', '.', 'x']

theorem cut_path_leads_out : relpathLoop (some dotsPath) = true ∧
    normalise "/data/film".toList = ⟨true, 0, ["data".toList, "film".toList]⟩ ∧
    normalise (fullPathText "/data/film".toList dotsPath) = ⟨true, 0, ["data".toList]⟩ := by
  rw [relpathLoop_some]
  decide +kernel

/-- `is_safe_relpath` accepts exactly the relative paths without empty and `..`
components; joined to a directory and cut they lead to the directory or below
exactly if the directory is named and the cut does not leave `.` components
followed by `..`. -/
theorem relpath_confined_iff (path : Option Name) (destDir p : Name) :
    (relpathLoop path = true ↔ ∃ p, path = some p ∧ p ≠ [] ∧ p.head? ≠ some '/' ∧
      ∀ c ∈ p.splitOn '/', c ≠ [] ∧ c ≠ ['.', '.']) ∧
    (destDir.length < 900 → relpathLoop (some p) = true →
      ((normalise (fullPathText destDir p)).Below (normalise destDir) ↔
        destDir ≠ [] ∧ ((normalise destDir).IsRoot ∨
          ∀ k, (p.take (1198 - destDir.length)).splitOn '/' ≠
            replicate k ['.'] ++ [['.', '.']]))) := by
  have exact (p : Name) : relpathLoop (some p) = true ↔ p ≠ [] ∧ p.head? ≠ some '/' ∧
      ∀ c ∈ p.splitOn '/', c ≠ [] ∧ c ≠ ['.', '.'] := by
    simp [relpathLoop, segmentLoop_iff, and_assoc]
  refine ⟨?_, fun short safe => ?_⟩
  · cases path with
    | none => simp [relpathLoop]
    | some p => simp [exact]
  obtain ⟨-, -, segments⟩ := (exact p).mp safe
  rw [fullPathText_eq short]
  by_cases empty : destDir = []
  · subst empty
    refine iff_of_false (fun below => ?_) (fun both => both.1 rfl)
    have absolute := below.1
    rw [normalise, normalise, absolute_foldl, absolute_foldl] at absolute
    simp at absolute
  obtain ⟨init, last, split, kept⟩ :=
    exists_segments (p.take (1198 - destDir.length)) (p.drop (1198 - destDir.length))
  rw [take_append_drop] at kept
  rw [normalise_append empty, split, foldl_append,
    foldl_step fun c member => segments c (kept c member)]
  have dots : (last = ['.', '.'] ∧ init.filter (· ≠ ['.']) = []) ↔
      ∃ k, init ++ [last] = replicate k ['.'] ++ [['.', '.']] := by
    constructor
    · rintro ⟨rfl, only⟩
      refine ⟨init.length, ?_⟩
      rw [← eq_replicate_of_mem fun c member => by simpa using filter_eq_nil_iff.mp only c member]
    · rintro ⟨k, same⟩
      obtain ⟨rfl, ends⟩ := append_inj' same rfl
      exact ⟨by simpa using ends, by simp⟩
  refine (below_step_iff _ _ last).trans ?_
  rw [dots, not_exists]
  exact ⟨fun held => ⟨empty, held⟩, And.right⟩

theorem relpath_confined_iff_file :
    (normalise (fullPathText "/data/film".toList "sub/a.nfo".toList)).Below
      (normalise "/data/film".toList) := by
  refine ((relpath_confined_iff none _ _).2 (by decide) ?_).mpr ⟨by decide, .inr fun k same => ?_⟩
  · rw [relpathLoop_some]
    decide
  · have last := congrArg getLast? same
    rw [getLast?_concat] at last
    revert last
    decide

end NzbDownloader.Extract
