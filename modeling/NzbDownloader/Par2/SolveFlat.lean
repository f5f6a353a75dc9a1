import NzbDownloader.Lib.RowMajor
import NzbDownloader.Par2.Singular

/-!
# The solver on its arrays

`gauss_elim` and `gf16_solve` of `par2/rs.c` with their flat arrays, the order in which
the loops write them, and the widths of the indices: rows, columns and their products
are `unsigned int`, while the counts that come in are `size_t`.
-/

namespace NzbDownloader.Par2.Flat

open Lib Lib.GaussJordan List Function Galois16

structure Buffers where
  leftmatrix : ℕ → Gf16
  rightmatrix : ℕ → Gf16

def index (cols row col : ℕ) : ℕ :=
  (row * cols + col) % 2 ^ 32

def divideEntry (pivotvalue : Gf16) (a : ℕ → Gf16) (i : ℕ) : ℕ → Gf16 :=
  if a i ≠ 0 then update a i (gf16Div (a i) pivotvalue) else a

def addEntry (multiple : Gf16 → Gf16) (a : ℕ → Gf16) (i source : ℕ) : ℕ → Gf16 :=
  if a source ≠ 0 then update a i (a i ^^^ multiple (a source)) else a

def normalizeRow (rows leftcols row : ℕ) (m : Buffers) : Buffers :=
  let pivotvalue := m.rightmatrix (index rows row row)
  if pivotvalue ≠ 1 then
    { leftmatrix := (range leftcols).foldl
        (fun a col => divideEntry pivotvalue a (index leftcols row col)) m.leftmatrix
      rightmatrix := (range' (row + 1) (rows - (row + 1))).foldl
        (fun a col => divideEntry pivotvalue a (index rows row col))
        (update m.rightmatrix (index rows row row) 1) }
  else m

def addRow (rows leftcols row row2 : ℕ) (multiple : Gf16 → Gf16) (m : Buffers) : Buffers where
  leftmatrix := (range leftcols).foldl
    (fun a col => addEntry multiple a (index leftcols row2 col) (index leftcols row col))
    m.leftmatrix
  rightmatrix := (range' row (rows - row)).foldl
    (fun a col => addEntry multiple a (index rows row2 col) (index rows row col)) m.rightmatrix

def clearRow (rows leftcols row : ℕ) (m : Buffers) (row2 : ℕ) : Buffers :=
  if row2 = row then m
  else
    let scalevalue := m.rightmatrix (index rows row2 row)
    if scalevalue = 1 then addRow rows leftcols row row2 id m
    else if scalevalue ≠ 0 then addRow rows leftcols row row2 (gf16Mul · scalevalue) m
    else m

def gaussElimRow (rows leftcols : ℕ) (m : Buffers) (row : ℕ) : Option Buffers :=
  if m.rightmatrix (index rows row row) = 0 then none
  else some ((range rows).foldl (clearRow rows leftcols row)
    (normalizeRow rows leftcols row m))

def gaussElim (rows leftcols : ℕ) (m : Buffers) : Option Buffers :=
  (range rows).foldlM (gaussElimRow rows leftcols) m

inductive Outcome
  | endless
  | failed
  | solved (coeffs : ℕ → Gf16)

def cleared (rows incount : ℕ) (coeffs : ℕ → Gf16) : Buffers where
  leftmatrix i := if i < rows * incount * 2 % 2 ^ 64 / 2 then 0 else coeffs i
  rightmatrix _ := 0

section Solve

variable (presentBases missingBases : List Gf16) (exponents : List (BitVec 16))

def setRow (rows incount : ℕ) (m : Buffers) (row : ℕ) : Buffers where
  leftmatrix :=
    let powers := (range presentBases.length).foldl (fun a col =>
      update a (index incount row col)
        (gf16Pow (presentBases.getD col 0) (exponents.getD row 0))) m.leftmatrix
    (range rows).foldl (fun a col =>
      update a ((row * incount % 2 ^ 32 + presentBases.length + col) % 2 ^ 64)
        (if row = col then 1 else 0)) powers
  rightmatrix := (range rows).foldl (fun a col =>
    update a (index rows row col)
      (gf16Pow (missingBases.getD col 0) (exponents.getD row 0))) m.rightmatrix

/-- `gf16_solve`; the counts are the lengths of the lists, `callocOk` is the outcome of its
allocation and `coeffs` the array that it is given. -/
def gf16Solve (callocOk : Bool) (coeffs : ℕ → Gf16) : Outcome :=
  let incount := (presentBases.length + missingBases.length) % 2 ^ 32
  let rows := missingBases.length % 2 ^ 32
  if rows = 0 then .solved coeffs
  else if callocOk then
    if 2 ^ 32 ≤ presentBases.length then .endless
    else
      let start := (range rows).foldl
        (setRow presentBases missingBases exponents rows incount) (cleared rows incount coeffs)
      match gaussElim rows incount start with
      | none => .failed
      | some m => .solved m.leftmatrix
  else .failed

end Solve

def Holds (rows cols : ℕ) (a : ℕ → Gf16) (entries : ℕ → ℕ → Gf16) : Prop :=
  ∀ r < rows, ∀ c < cols, a (r * cols + c) = entries r c

structure Refines (rows leftcols : ℕ) (flat : Buffers) (m : Augmented) : Prop where
  left : Holds rows leftcols flat.leftmatrix m.left
  right : Holds rows rows flat.rightmatrix m.right

variable {rows row : ℕ} {entries : ℕ → ℕ → Gf16}

theorem index_eq {cols col : ℕ} (fits : rows * cols ≤ 2 ^ 32) (isRow : row < rows)
    (isCol : col < cols) : index cols row col = row * cols + col :=
  Nat.mod_eq_of_lt ((rowMajor_lt isRow isCol).trans_le fits)

theorem divideEntry_eq (pivotvalue : Gf16) (a : ℕ → Gf16) (i : ℕ) :
    divideEntry pivotvalue a i =
      update a i (if a i ≠ 0 then gf16Div (a i) pivotvalue else a i) := by
  unfold divideEntry
  split
  · rfl
  · exact (update_eq_self i a).symm

theorem addEntry_eq (multiple : Gf16 → Gf16) (a : ℕ → Gf16) (i source : ℕ) :
    addEntry multiple a i source =
      update a i (if a source ≠ 0 then a i ^^^ multiple (a source) else a i) := by
  unfold addEntry
  split
  · rfl
  · exact (update_eq_self i a).symm

section Loops

variable {cols row2 : ℕ} {a : ℕ → Gf16} {l : List ℕ}

theorem Holds.fill (holds : Holds rows cols a entries) (inside : ∀ c ∈ l, c < cols)
    (distinct : l.Nodup) {place : ℕ → ℕ} (places : ∀ c ∈ l, place c = row * cols + c)
    {value : (ℕ → Gf16) → ℕ → Gf16}
    (settled : ∀ c ∈ l, ∀ a', (∀ r, a' (r * cols + c) = a (r * cols + c)) →
      value a' c = value a c) :
    Holds rows cols (Lib.fill place value a l)
      fun r c => if r = row ∧ c ∈ l then value a c else entries r c := by
  intro r isRow c isCol
  rw [fill_row inside distinct places settled isCol, holds r isRow c isCol]

variable (holds : Holds rows cols a entries) (fits : rows * cols ≤ 2 ^ 32) (bound : row < rows)
  (inside : ∀ c ∈ l, c < cols) (distinct : l.Nodup)

include holds fits bound inside distinct

theorem Holds.combine (bound2 : row2 < rows) (f : Gf16 → Gf16 → Gf16) :
    Holds rows cols (l.foldl (fun a col => update a (index cols row2 col)
        (f (a (index cols row col)) (a (index cols row2 col)))) a)
      fun r c => if r = row2 ∧ c ∈ l then f (entries row c) (entries r c) else entries r c := by
  intro r isRow c isCol
  rw [← Lib.fill, holds.fill inside distinct
    (fun c member => index_eq fits bound2 (inside c member)) _ r isRow c isCol]
  · by_cases here : r = row2 ∧ c ∈ l
    · obtain ⟨rfl, member⟩ := here
      simp only [member, and_self, if_true, index_eq fits isRow isCol, index_eq fits bound isCol,
        holds r isRow c isCol, holds row bound c isCol]
    · dsimp only
      rw [if_neg here, if_neg here]
  · intro c member a' agree
    rw [index_eq fits bound (inside c member), index_eq fits bound2 (inside c member), agree row,
      agree row2]

theorem Holds.divide (pivotvalue : Gf16) :
    Holds rows cols (l.foldl (fun a col => divideEntry pivotvalue a (index cols row col)) a)
      fun r c => if r = row ∧ c ∈ l ∧ entries r c ≠ 0 then gf16Div (entries r c) pivotvalue
        else entries r c := by
  simpa only [divideEntry_eq, ite_and] using holds.combine fits bound inside distinct bound
    fun _ t => if t ≠ 0 then gf16Div t pivotvalue else t

theorem Holds.add (bound2 : row2 < rows) (multiple : Gf16 → Gf16) :
    Holds rows cols (l.foldl (fun a col =>
        addEntry multiple a (index cols row2 col) (index cols row col)) a)
      fun r c => if r = row2 ∧ c ∈ l ∧ entries row c ≠ 0 then
          entries r c ^^^ multiple (entries row c)
        else entries r c := by
  simpa only [addEntry_eq, ite_and] using holds.combine fits bound inside distinct bound2
    fun s t => if s ≠ 0 then t ^^^ multiple s else t

theorem Holds.set (value : ℕ → Gf16) :
    Holds rows cols (l.foldl (fun a col => update a (index cols row col) (value col)) a)
      fun r c => if r = row ∧ c ∈ l then value c else entries r c :=
  holds.fill inside distinct (fun c member => index_eq fits bound (inside c member))
    fun _ _ _ _ => rfl

end Loops

section Elimination

variable {leftcols row2 : ℕ} {flat : Buffers} {m : Augmented} (fits : rows * leftcols ≤ 2 ^ 32)
  (fits' : rows * rows ≤ 2 ^ 32)

include fits fits'

section

variable (refines : Refines rows leftcols flat m) (bound : row < rows)

include refines bound

theorem Refines.normalizeRow :
    Refines rows leftcols (normalizeRow rows leftcols row flat)
      (Par2.normalizeRow rows leftcols row m) := by
  unfold Flat.normalizeRow Par2.normalizeRow
  have pivot : flat.rightmatrix (index rows row row) = m.right row row := by
    rw [index_eq fits' bound bound, refines.right row bound row bound]
  rw [pivot]
  dsimp only
  split
  · constructor
    · intro r isRow c isCol
      have divided := refines.left.divide fits bound (l := range leftcols)
        (fun c => mem_range.mp) nodup_range (m.right row row) r isRow c isCol
      simpa only [mem_range] using divided
    · intro r isRow c isCol
      have one := refines.right.set fits' bound (l := [row])
        (fun c member => mem_singleton.mp member ▸ bound) (nodup_singleton row) fun _ => 1
      have divided := one.divide fits' bound (l := range' (row + 1) (rows - (row + 1)))
        (fun c member => by rw [mem_range'_1] at member; omega)
        nodup_range' (m.right row row) r isRow c isCol
      refine divided.trans ?_
      have after : c ∈ range' (row + 1) (rows - (row + 1)) ↔ row + 1 ≤ c ∧ c < rows := by
        rw [mem_range'_1]
        omega
      simp only [mem_singleton, after]
      by_cases pivot : r = row ∧ c = row
      · rw [if_neg fun all => absurd all.2.1.1 (by omega), if_pos pivot, if_pos pivot]
      · simp only [pivot, if_false, and_assoc]
  · exact refines

theorem Refines.addRow (bound2 : row2 < rows) (multiple : Gf16 → Gf16) :
    Refines rows leftcols (addRow rows leftcols row row2 multiple flat)
      { left := fun r c =>
          if r = row2 ∧ c < leftcols ∧ m.left row c ≠ 0 then
            m.left r c ^^^ multiple (m.left row c)
          else m.left r c
        right := fun r c =>
          if r = row2 ∧ row ≤ c ∧ c < rows ∧ m.right row c ≠ 0 then
            m.right r c ^^^ multiple (m.right row c)
          else m.right r c } := by
  constructor
  · intro r isRow c isCol
    have added := refines.left.add fits bound (l := range leftcols)
      (fun c => mem_range.mp) nodup_range bound2 multiple r isRow c isCol
    simpa only [Flat.addRow, mem_range] using added
  · intro r isRow c isCol
    have added := refines.right.add fits' bound (l := range' row (rows - row))
      (fun c member => by rw [mem_range'_1] at member; omega)
      nodup_range' bound2 multiple r isRow c isCol
    have after : c ∈ range' row (rows - row) ↔ row ≤ c ∧ c < rows := by
      rw [mem_range'_1]
      omega
    simpa only [Flat.addRow, after, and_assoc] using added

theorem Refines.clearRow (bound2 : row2 < rows) :
    Refines rows leftcols (clearRow rows leftcols row flat row2)
      (Par2.clearRow rows leftcols row m row2) := by
  unfold Flat.clearRow Par2.clearRow
  have scale : flat.rightmatrix (index rows row2 row) = m.right row2 row := by
    rw [index_eq fits' bound2 bound, refines.right row2 bound2 row bound]
  rw [scale]
  dsimp only
  split_ifs
  · exact refines
  · exact refines.addRow fits fits' bound bound2 id
  · exact refines.addRow fits fits' bound bound2 (gf16Mul · (m.right row2 row))
  · exact refines

theorem Refines.clearRows {l : List ℕ} (inside : ∀ r ∈ l, r < rows) :
    Refines rows leftcols (l.foldl (Flat.clearRow rows leftcols row) flat)
      (l.foldl (Par2.clearRow rows leftcols row) m) := by
  induction l generalizing flat m with
  | nil => exact refines
  | cons r rest ih =>
    exact ih (refines.clearRow fits fits' bound (inside r (.head _)))
      fun r' member => inside r' (.tail r member)

theorem Refines.gaussElimRow :
    Option.Rel (Refines rows leftcols) (gaussElimRow rows leftcols flat row)
      (Par2.gaussElimRow rows leftcols m row) := by
  unfold Flat.gaussElimRow Par2.gaussElimRow
  rw [index_eq fits' bound bound, refines.right row bound row bound]
  split
  · exact .none
  · exact .some ((refines.normalizeRow fits fits' bound).clearRows fits fits' bound
      fun r member => mem_range.mp member)

end

theorem Refines.gaussElim (refines : Refines rows leftcols flat m) :
    Option.Rel (Refines rows leftcols) (gaussElim rows leftcols flat)
      (Par2.gaussElim rows leftcols m) := by
  have loop : ∀ l : List ℕ, (∀ r ∈ l, r < rows) → ∀ flat m, Refines rows leftcols flat m →
      Option.Rel (Refines rows leftcols) (l.foldlM (Flat.gaussElimRow rows leftcols) flat)
        (l.foldlM (Par2.gaussElimRow rows leftcols) m) := by
    intro l
    induction l with
    | nil => exact fun _ _ _ refines => .some refines
    | cons row rest ih =>
      intro inside flat m refines
      rw [foldlM_cons, foldlM_cons]
      have first := refines.gaussElimRow fits fits' (inside row (.head _))
      generalize Flat.gaussElimRow rows leftcols flat row = flat' at first ⊢
      generalize Par2.gaussElimRow rows leftcols m row = m' at first ⊢
      cases first with
      | none => exact .none
      | some refines =>
        exact ih (fun r member => inside r (.tail row member)) _ _ refines
  exact loop _ (fun r member => mem_range.mp member) flat m refines

end Elimination

variable {m : Buffers} {presentBases missingBases : List Gf16} {exponents : List (BitVec 16)}

section Setup

variable {incount : ℕ} (wide : presentBases.length + rows = incount)
  (fits : rows * incount ≤ 2 ^ 32)

include wide fits

theorem setRow_left (bound : row < rows) {r c : ℕ} (isRow : r < rows) (isCol : c < incount) :
    (setRow presentBases missingBases exponents rows incount m row).leftmatrix (r * incount + c) =
      if r = row then (solveMatrices presentBases missingBases exponents).left r c
      else m.leftmatrix (r * incount + c) := by
  subst wide
  have stored : Holds rows (presentBases.length + rows) m.leftmatrix
      fun r c => m.leftmatrix (r * (presentBases.length + rows) + c) := fun _ _ _ _ => rfl
  have powers := stored.set fits bound (l := range presentBases.length)
    (fun c member => (mem_range.mp member).trans_le (Nat.le_add_right ..)) nodup_range
    fun col => gf16Pow (presentBases.getD col 0) (exponents.getD row 0)
  have inside : ∀ c ∈ (range rows).map (presentBases.length + ·),
      c < presentBases.length + rows := by
    intro c member
    obtain ⟨col, isCol, rfl⟩ := mem_map.mp member
    exact Nat.add_lt_add_left (mem_range.mp isCol) presentBases.length
  have places : ∀ c ∈ (range rows).map (presentBases.length + ·),
      (row * (presentBases.length + rows) % 2 ^ 32 + c) % 2 ^ 64 =
        row * (presentBases.length + rows) + c := by
    intro c member
    have small := (rowMajor_lt bound (inside c member)).trans_le fits
    rw [Nat.mod_eq_of_lt (by omega), Nat.mod_eq_of_lt (by omega)]
  let ones (_ : ℕ → Gf16) (c : ℕ) : Gf16 := if row = c - presentBases.length then 1 else 0
  have filled : Holds rows _ (Lib.fill _ ones _ _) _ := powers.fill inside
    (nodup_range.map (add_right_injective presentBases.length)) places fun _ _ _ _ => rfl
  have after : c ∈ (range rows).map (presentBases.length + ·) ↔ presentBases.length ≤ c := by
    simp only [mem_map, mem_range]
    exact ⟨by omega, fun late => ⟨c - presentBases.length, by omega⟩⟩
  have written := filled r isRow c isCol
  simp only [Lib.fill, ones, foldl_map, Nat.add_sub_cancel_left, ← Nat.add_assoc] at written
  refine written.trans ?_
  simp only [after, mem_range, solveMatrices]
  by_cases same : r = row
  · by_cases early : c < presentBases.length
    · simp only [same, early, Nat.not_le.mpr early, and_false, if_false, and_self, if_true]
    · simp only [same, early, Nat.not_lt.mp early, and_self, if_true, if_false]
  · simp only [same, false_and, if_false]

omit wide fits in
theorem setRow_right (fits' : rows * rows ≤ 2 ^ 32) (bound : row < rows) {r c : ℕ}
    (isRow : r < rows) (isCol : c < rows) :
    (setRow presentBases missingBases exponents rows incount m row).rightmatrix (r * rows + c) =
      if r = row then (solveMatrices presentBases missingBases exponents).right r c
      else m.rightmatrix (r * rows + c) := by
  have stored : Holds rows rows m.rightmatrix fun r c => m.rightmatrix (r * rows + c) :=
    fun _ _ _ _ => rfl
  have powers := stored.set fits' bound (l := range rows) (fun c => mem_range.mp) nodup_range
    (fun col => gf16Pow (missingBases.getD col 0) (exponents.getD row 0)) r isRow c isCol
  refine powers.trans ?_
  simp only [mem_range, isCol, and_true, solveMatrices]
  split
  · rename_i same
    rw [same]
  · rfl

/-- The rows that have been set hold the matrices of the system. -/
theorem start_refines (missingBases : List Gf16) (exponents : List (BitVec 16)) (start : Buffers) :
    Refines rows incount
      ((range rows).foldl (setRow presentBases missingBases exponents rows incount) start)
      (solveMatrices presentBases missingBases exponents) := by
  have fits' : rows * rows ≤ 2 ^ 32 := (Nat.mul_le_mul_left _ (by omega)).trans fits
  suffices loop : ∀ j ≤ rows,
      Holds j incount ((range j).foldl (setRow presentBases missingBases exponents rows incount)
        start).leftmatrix (solveMatrices presentBases missingBases exponents).left ∧
      Holds j rows ((range j).foldl (setRow presentBases missingBases exponents rows incount)
        start).rightmatrix (solveMatrices presentBases missingBases exponents).right from
    ⟨(loop rows le_rfl).1, (loop rows le_rfl).2⟩
  intro j
  induction j with
  | zero => exact fun _ => ⟨nofun, nofun⟩
  | succ j ih =>
    intro bound
    obtain ⟨left, right⟩ := ih (Nat.le_of_succ_le bound)
    rw [range_succ, foldl_append]
    constructor
    · intro r isRow c isCol
      refine (setRow_left wide fits bound (by omega) isCol).trans ?_
      split
      · rfl
      · exact left r (by omega) c isCol
    · intro r isRow c isCol
      refine (setRow_right fits' bound (by omega) isCol).trans ?_
      split
      · rfl
      · exact right r (by omega) c isCol

end Setup

/-- The coefficients, read row by row, give a missing value from the present and the recovery
values. -/
def Reconstructs (presentBases missingBases : List Gf16) (exponents : List (BitVec 16))
    (coeffs : ℕ → Gf16) (x y : ℕ → Galois16) (r : ℕ) : Prop :=
  let incount := presentBases.length + missingBases.length
  y r = (∑ c ∈ Finset.range presentBases.length, mk (coeffs (r * incount + c)) * x c) +
    ∑ k ∈ Finset.range missingBases.length,
      mk (coeffs (r * incount + (presentBases.length + k))) *
        recoveryValue presentBases missingBases exponents x y k

def Outcome.solution : Outcome → Option (ℕ → Gf16)
  | .solved coeffs => some coeffs
  | .endless | .failed => none

/-- If the indices fit, the call on the arrays answers as the one on matrices. -/
theorem gf16Solve_refines {callocOk : Bool} {buffer : ℕ → Gf16}
    (narrow : presentBases.length + missingBases.length < 2 ^ 32) (some : 0 < missingBases.length)
    (fits : missingBases.length * (presentBases.length + missingBases.length) ≤ 2 ^ 32) :
    Option.Rel (Holds missingBases.length (presentBases.length + missingBases.length))
      (gf16Solve presentBases missingBases exponents callocOk buffer).solution
      (Par2.gf16Solve callocOk presentBases missingBases exponents) := by
  have fits' : missingBases.length * missingBases.length ≤ 2 ^ 32 :=
    (Nat.mul_le_mul_left _ (Nat.le_add_left ..)).trans fits
  rw [gf16Solve, Nat.mod_eq_of_lt narrow, Nat.mod_eq_of_lt (by omega), Par2.gf16Solve]
  dsimp only
  rw [if_neg some.ne', if_neg some.ne']
  cases callocOk with
  | false => exact .none
  | true =>
    have refines := (start_refines rfl fits missingBases exponents
      (cleared missingBases.length (presentBases.length + missingBases.length) buffer)).gaussElim
        fits fits'
    rw [if_pos rfl, if_pos rfl, if_neg (by omega)]
    generalize gaussElim _ _ _ = run at refines ⊢
    generalize Par2.gaussElim _ _ _ = result at refines ⊢
    cases refines with
    | none => exact .none
    | some held => exact .some held.left

/-- If the indices fit, the coefficients of a call that returns 0 give every missing value
from the present and the recovery values. -/
theorem gf16Solve_sound {callocOk : Bool} {buffer coeffs : ℕ → Gf16}
    (narrow : presentBases.length + missingBases.length < 2 ^ 32)
    (fits : missingBases.length * (presentBases.length + missingBases.length) ≤ 2 ^ 32)
    (solved : gf16Solve presentBases missingBases exponents callocOk buffer = .solved coeffs)
    (x y : ℕ → Galois16) {r : ℕ} (bound : r < missingBases.length) :
    Reconstructs presentBases missingBases exponents coeffs x y r := by
  have refines := @gf16Solve_refines _ _ exponents callocOk buffer narrow
    (Nat.zero_lt_of_lt bound) fits
  rw [solved, Outcome.solution] at refines
  generalize run : Par2.gf16Solve _ _ _ _ = result at refines
  obtain ⟨holds⟩ := refines
  refine (gf16Solve_eq run x y bound).trans ?_
  congr 1
  all_goals
    apply Finset.sum_congr rfl
    intro k member
    have below := Finset.mem_range.mp member
    rw [holds r bound _ (by omega)]

/-- One block is there and two are missing, with the slices of exponents 0 and 1. -/
theorem gf16Solve_sound_two : ∃ coeffs,
    gf16Solve [16] [2, 4] [0, 1] true (fun _ => 0) = .solved coeffs ∧
      ∀ x y, ∀ r < 2, Reconstructs [16] [2, 4] [0, 1] coeffs x y r := by
  have invertible : ∀ k ≤ 2, IsUnit (leading (powers [2, 4] [0, 1]) k) := by
    intro k bound
    rw [Matrix.isUnit_iff_isUnit_det, isUnit_iff_ne_zero]
    interval_cases k
    · rw [Matrix.det_isEmpty]
      exact one_ne_zero
    · rw [Matrix.det_unique]
      exact one_ne_zero
    · have entries : (leading (powers [2, 4] [0, 1]) 2).det = mk 4 - mk 2 := by
        rw [det_leading_two]
        simp [powers]
      rw [entries, sub_ne_zero]
      exact fun equal => absurd (mk.inj equal) (by decide)
  have refines := @gf16Solve_refines [16] [2, 4] [0, 1] true (fun _ => 0) (by decide) (by decide)
    (by decide)
  generalize run : gf16Solve [16] [2, 4] [0, 1] true (fun _ => 0) = outcome at refines
  cases outcome with
  | solved coeffs =>
    exact ⟨coeffs, rfl, fun x y r bound => gf16Solve_sound (by decide) (by decide) run x y bound⟩
  | _ =>
    generalize solved : Par2.gf16Solve _ _ _ _ = result at refines
    cases refines
    obtain ⟨k, bound, singular⟩ := (gf16Solve_eq_none_iff ..).mp solved
    exact absurd (invertible k bound) singular

theorem gf16Pow_one (b : Gf16) : gf16Pow b 1 = b := by
  have power := mk_gf16Pow b 1
  rw [show (1 : BitVec 16).toNat = 1 from rfl, pow_one] at power
  exact mk.inj power

/-- With one missing block, the elimination only divides the row by the pivot. -/
theorem gf16Solve_one {base : Gf16} {buffer : ℕ → Gf16} (nonzero : base ≠ 0)
    (narrow : presentBases.length < 2 ^ 32) {incount : ℕ}
    (wide : (presentBases.length + 1) % 2 ^ 32 = incount) :
    gf16Solve presentBases [base] [1] true buffer = .solved (normalizeRow 1 incount 0
      (setRow presentBases [base] [1] 1 incount (cleared 1 incount buffer) 0)).leftmatrix := by
  let start := setRow presentBases [base] [1] 1 incount (cleared 1 incount buffer) 0
  have pivot : start.rightmatrix 0 = base := gf16Pow_one base
  have eliminated : gaussElim 1 incount start = some (normalizeRow 1 incount 0 start) := by
    change (gaussElimRow 1 incount start 0).bind some = _
    exact congrArg (Option.bind · some) (if_neg (by rwa [← pivot] at nonzero))
  simp only [gf16Solve, length_singleton, wide]
  change (if 2 ^ 32 ≤ presentBases.length then Outcome.endless else
    match gaussElim 1 incount start with
    | none => .failed
    | some m => .solved m.leftmatrix) = _
  rw [if_neg (by omega), eliminated]

theorem normalizeRow_no_columns (m : Buffers) :
    (normalizeRow rows 0 row m).leftmatrix = m.leftmatrix := by
  unfold normalizeRow
  dsimp only
  split
  · rfl
  · rfl

/-- The sum of the counts wraps to 0, so that the pivot divides no coefficient. -/
theorem gf16Solve_wrapped (narrow : presentBases.length < 2 ^ 32)
    (wraps : (presentBases.length + 1) % 2 ^ 32 = 0) : ∃ coeffs,
    gf16Solve presentBases [2] [1] true (fun _ => 0) = .solved coeffs ∧
      ¬Reconstructs presentBases [2] [1] coeffs (fun _ => 0) (fun _ => 1) 0 := by
  have run := @gf16Solve_one presentBases 2 (fun _ => 0) (by decide) narrow 0 wraps
  rw [normalizeRow_no_columns] at run
  have unscaled : (setRow presentBases [2] [1] 1 0 (cleared 1 0 fun _ => 0) 0).leftmatrix
      presentBases.length = 1 := by
    have place : (0 * 0 % 2 ^ 32 + presentBases.length + 0) % 2 ^ 64 = presentBases.length := by
      omega
    change update _ ((0 * 0 % 2 ^ 32 + presentBases.length + 0) % 2 ^ 64) _ _ = 1
    rw [place, update_self]
    rfl
  refine ⟨_, run, fun equal => ?_⟩
  generalize (setRow presentBases [2] [1] 1 0 (cleared 1 0 fun _ => 0) 0).leftmatrix = coeffs
    at unscaled equal
  have factor : mk (coeffs presentBases.length) = 1 := congrArg mk unscaled
  have recovered : (1 : Galois16) = mk 2 := by
    simpa [Reconstructs, recoveryValue, factor] using equal
  exact absurd (mk.inj recovered) (by decide)

/-- With `2^32 - 1` present blocks and one missing block the call returns 0 and leaves
the factor of the recovery slice unscaled. -/
theorem wrapped_count_unscaled : ∃ (presentBases : List Gf16) (coeffs : ℕ → Gf16),
    presentBases.length = 2 ^ 32 - 1 ∧
      gf16Solve presentBases [2] [1] true (fun _ => 0) = .solved coeffs ∧
      ¬Reconstructs presentBases [2] [1] coeffs (fun _ => 0) (fun _ => 1) 0 := by
  have lists (n : ℕ) : ∃ l : List Gf16, l.length = n := ⟨replicate n 1, length_replicate⟩
  obtain ⟨presentBases, count⟩ := lists (2 ^ 32 - 1)
  obtain ⟨coeffs, run, wrong⟩ := @gf16Solve_wrapped presentBases (by omega) (by omega)
  exact ⟨presentBases, coeffs, count, run, wrong⟩

end NzbDownloader.Par2.Flat
