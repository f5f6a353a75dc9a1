import NzbDownloader.Lib.GaussJordan
import NzbDownloader.Par2.Gf16Field

/-!
# Solving for the missing blocks

`gauss_elim` and `gf16_solve` of `par2/rs.c`.  The flat row-major arrays of the
source are functions of row and column here.  The loops over columns act on each
column alone and are written pointwise; the loops over rows run in order.
-/

namespace NzbDownloader.Par2

open Lib.GaussJordan Galois16
open Finset (range sum_congr)

structure Augmented where
  left : ℕ → ℕ → Gf16
  right : ℕ → ℕ → Gf16

def normalizeRow (rows leftcols row : ℕ) (m : Augmented) : Augmented :=
  let pivotvalue := m.right row row
  if pivotvalue ≠ 1 then
    { left := fun r c =>
        if r = row ∧ c < leftcols ∧ m.left r c ≠ 0 then gf16Div (m.left r c) pivotvalue
        else m.left r c
      right := fun r c =>
        if r = row ∧ c = row then 1
        else if r = row ∧ row + 1 ≤ c ∧ c < rows ∧ m.right r c ≠ 0 then
          gf16Div (m.right r c) pivotvalue
        else m.right r c }
  else m

def clearRow (rows leftcols row : ℕ) (m : Augmented) (row2 : ℕ) : Augmented :=
  if row2 = row then m
  else
    let scalevalue := m.right row2 row
    if scalevalue = 1 then
      { left := fun r c =>
          if r = row2 ∧ c < leftcols ∧ m.left row c ≠ 0 then m.left r c ^^^ m.left row c
          else m.left r c
        right := fun r c =>
          if r = row2 ∧ row ≤ c ∧ c < rows ∧ m.right row c ≠ 0 then
            m.right r c ^^^ m.right row c
          else m.right r c }
    else if scalevalue ≠ 0 then
      { left := fun r c =>
          if r = row2 ∧ c < leftcols ∧ m.left row c ≠ 0 then
            m.left r c ^^^ gf16Mul (m.left row c) scalevalue
          else m.left r c
        right := fun r c =>
          if r = row2 ∧ row ≤ c ∧ c < rows ∧ m.right row c ≠ 0 then
            m.right r c ^^^ gf16Mul (m.right row c) scalevalue
          else m.right r c }
    else m

def gaussElimRow (rows leftcols : ℕ) (m : Augmented) (row : ℕ) : Option Augmented :=
  if m.right row row = 0 then none
  else some ((List.range rows).foldl (clearRow rows leftcols row)
    (normalizeRow rows leftcols row m))

def gaussElim (rows leftcols : ℕ) (m : Augmented) : Option Augmented :=
  (List.range rows).foldlM (gaussElimRow rows leftcols) m

def solveMatrices (presentBases missingBases : List Gf16) (exponents : List (BitVec 16)) :
    Augmented where
  left row col :=
    if col < presentBases.length then
      gf16Pow (presentBases.getD col 0) (exponents.getD row 0)
    else if row = col - presentBases.length then 1 else 0
  right row col := gf16Pow (missingBases.getD col 0) (exponents.getD row 0)

/-- `gf16_solve`; `callocOk` is the outcome of its one allocation.  The result is
`coeffs` as a function of row and column. -/
def gf16Solve (callocOk : Bool) (presentBases missingBases : List Gf16)
    (exponents : List (BitVec 16)) : Option (ℕ → ℕ → Gf16) :=
  if missingBases.length = 0 then some fun _ _ => 0
  else if callocOk then
    (gaussElim missingBases.length (presentBases.length + missingBases.length)
      (solveMatrices presentBases missingBases exponents)).map Augmented.left
  else none

def Represents (rows leftcols : ℕ) (m : Augmented) (S : System Galois16) : Prop :=
  ∀ r < rows, (∀ c < leftcols, mk (m.left r c) = S.left r c) ∧
    ∀ c < rows, mk (m.right r c) = S.right r c

def Augmented.toSystem (m : Augmented) : System Galois16 where
  left r c := ⟨m.left r c⟩
  right r c := ⟨m.right r c⟩

theorem represents_toSystem (rows leftcols : ℕ) (m : Augmented) :
    Represents rows leftcols m m.toSystem :=
  fun _ _ => ⟨fun _ _ => rfl, fun _ _ => rfl⟩

theorem Galois16.sub_eq_add (a b : Galois16) : a - b = a + b :=
  sub_eq_add_neg a b

theorem Galois16.add_self (a : Galois16) : a + a = 0 := by
  rw [← sub_eq_add, sub_self]

private theorem mk_gf16Div_of_ne {a p : Gf16} (nonzero : p ≠ 0) :
    mk (if a ≠ 0 then gf16Div a p else a) = mk a / mk p := by
  split
  · exact mk_gf16Div a nonzero
  · rename_i zero
    push Not at zero
    rw [zero]
    exact (zero_div (mk p)).symm

section Row

variable {rows leftcols row : ℕ} {m : Augmented} {S : System Galois16}

theorem normalizeRow_row (represents : Represents rows leftcols m S) (bound : row < rows)
    (unit : S.UnitColumns rows row) (nonzero : m.right row row ≠ 0) :
    (∀ c < leftcols, mk ((normalizeRow rows leftcols row m).left row c) =
        (S.pivot row).left row c) ∧
      ∀ c < rows, mk ((normalizeRow rows leftcols row m).right row c) =
        (S.pivot row).right row c := by
  have pivotEq : mk (m.right row row) = S.right row row :=
    (represents row bound).2 row bound
  by_cases one : m.right row row = 1
  · have pivotOne : S.right row row = 1 := by rw [← pivotEq, one]; rfl
    simp only [normalizeRow, one, ne_eq, not_true_eq_false, if_false, System.pivot, if_true,
      pivotOne, div_one]
    exact represents row bound
  · simp only [normalizeRow, ne_eq, one, not_false_eq_true, if_true, System.pivot, true_and]
    constructor
    · intro c colBound
      simp only [colBound, true_and]
      rw [← (represents row bound).1 c colBound, ← pivotEq]
      exact mk_gf16Div_of_ne nonzero
    · intro c colBound
      rw [← (represents row bound).2 c colBound, ← pivotEq]
      rcases Nat.lt_trichotomy c row with below | rfl | above
      · -- Columns left of the pivot are zero already and the loop skips them.
        have zero : mk (m.right row c) = 0 := by
          rw [(represents row bound).2 c colBound, unit row bound c below,
            if_neg (Nat.ne_of_gt below)]
        rw [if_neg (Nat.ne_of_lt below), if_neg (by omega), zero, zero_div]
      · rw [if_pos rfl, div_self (mk_ne_zero.mpr nonzero)]
        rfl
      · rw [if_neg (Nat.ne_of_gt above)]
        have right : row + 1 ≤ c := above
        simp only [right, colBound, true_and]
        exact mk_gf16Div_of_ne nonzero

variable (rows leftcols row m) in
theorem normalizeRow_other {r : ℕ} (different : r ≠ row) :
    (normalizeRow rows leftcols row m).left r = m.left r ∧
      (normalizeRow rows leftcols row m).right r = m.right r := by
  unfold normalizeRow
  dsimp only
  split <;> simp [different]

variable (rows leftcols row m) in
theorem clearRow_other {row2 r : ℕ} (different : r ≠ row2) :
    (clearRow rows leftcols row m row2).left r = m.left r ∧
      (clearRow rows leftcols row m row2).right r = m.right r := by
  unfold clearRow
  split
  · exact ⟨rfl, rfl⟩
  · dsimp only
    split
    · simp [different]
    · split <;> simp [different]

variable (rows leftcols m) in
theorem clearRow_self {row2 : ℕ} (different : row2 ≠ row) :
    (∀ c < leftcols, mk ((clearRow rows leftcols row m row2).left row2 c) =
        ⟨m.left row2 c⟩ + ⟨m.right row2 row⟩ * ⟨m.left row c⟩) ∧
      ∀ c < rows, mk ((clearRow rows leftcols row m row2).right row2 c) =
        ⟨m.right row2 c⟩ +
          if row ≤ c then ⟨m.right row2 row⟩ * ⟨m.right row c⟩ else 0 := by
  have product : ∀ a b s : Gf16, mk (if b ≠ 0 then a ^^^ gf16Mul b s else a) =
      ⟨a⟩ + ⟨s⟩ * ⟨b⟩ := by
    intro a b s
    split
    · rw [mk_xor, mk_gf16Mul, mul_comm]
    · rename_i zero
      push Not at zero
      rw [zero, show mk 0 = 0 from rfl, mul_zero, add_zero]
  have unitProduct : ∀ a b : Gf16, mk (if b ≠ 0 then a ^^^ b else a) =
      ⟨a⟩ + ⟨1⟩ * ⟨b⟩ := by
    intro a b
    rw [show (⟨1⟩ : Galois16) = 1 from rfl, one_mul]
    split
    · rfl
    · rename_i zero
      push Not at zero
      rw [zero]
      exact (add_zero (mk a)).symm
  simp only [clearRow, if_neg different]
  by_cases one : m.right row2 row = 1
  · simp only [one, if_true, true_and]
    constructor
    · intro c bound
      simp only [bound, true_and]
      exact unitProduct _ _
    · intro c bound
      by_cases after : row ≤ c
      · simp only [after, bound, true_and, if_true]
        exact unitProduct _ _
      · simp [after]
  · rw [if_neg one]
    by_cases zero : m.right row2 row = 0
    · have none : mk (0#16) = 0 := rfl
      simp [zero, none]
    simp only [ne_eq, zero, not_false_eq_true, if_true, true_and]
    constructor
    · intro c bound
      simp only [bound, true_and]
      exact product _ _ _
    · intro c bound
      by_cases after : row ≤ c
      · simp only [after, bound, true_and, if_true]
        exact product _ _ _
      · simp [after]

theorem gaussElimRow_represents (represents : Represents rows leftcols m S)
    (bound : row < rows) (unit : S.UnitColumns rows row) {m' : Augmented}
    (step : gaussElimRow rows leftcols m row = some m') :
    S.right row row ≠ 0 ∧ Represents rows leftcols m' (S.pivot row) := by
  unfold gaussElimRow at step
  split at step
  · contradiction
  rename_i nonzero
  cases step
  have pivotNonzero : S.right row row ≠ 0 := by
    rw [← (represents row bound).2 row bound]
    exact mk_ne_zero.mpr nonzero
  refine ⟨pivotNonzero, ?_⟩
  obtain ⟨rowLeft, rowRight⟩ := normalizeRow_row represents bound unit nonzero
  -- After `j` iterations of the loop over `row2`, rows below `j` are cleared.
  have loop : ∀ j ≤ rows, ∀ r < rows,
      let current := (List.range j).foldl (clearRow rows leftcols row)
        (normalizeRow rows leftcols row m)
      let target := if r = row ∨ r < j then S.pivot row else S
      (∀ c < leftcols, mk (current.left r c) = target.left r c) ∧
        ∀ c < rows, mk (current.right r c) = target.right r c := by
    intro j
    induction j with
    | zero =>
      intro _ r rBound
      by_cases same : r = row
      · subst same
        simpa using ⟨rowLeft, rowRight⟩
      · have kept := normalizeRow_other rows leftcols row m same
        simp only [List.range_zero, List.foldl_nil, same, Nat.not_lt_zero, or_self, if_false,
          kept.1, kept.2]
        exact represents r rBound
    | succ j ih =>
      intro jBound r rBound
      simp only [List.range_succ, List.foldl_append, List.foldl_cons, List.foldl_nil]
      generalize state : (List.range j).foldl (clearRow rows leftcols row)
        (normalizeRow rows leftcols row m) = current at ih
      have before := ih (by omega)
      by_cases atRow : r = j
      · subst atRow
        by_cases same : r = row
        · have here := before r rBound
          simp only [clearRow, same, if_true, true_or] at here ⊢
          exact here
        · obtain ⟨clearLeft, clearRight⟩ :=
            clearRow_self rows leftcols current same
          have old := before r rBound
          have pivotRow := before row bound
          simp only [same, Nat.lt_irrefl, or_self, if_false] at old
          simp only [true_or, if_true] at pivotRow
          have factor : mk (current.right r row) = S.right r row := old.2 row bound
          simp only [Nat.lt_succ_self, or_true, if_true]
          constructor
          · intro c colBound
            rw [clearLeft c colBound, factor, old.1 c colBound, pivotRow.1 c colBound]
            simp only [System.pivot, if_neg same, if_true]
            rw [sub_eq_add]
          · intro c colBound
            rw [clearRight c colBound, factor, old.2 c colBound, pivotRow.2 c colBound]
            simp only [System.pivot, if_neg same, if_true]
            rw [sub_eq_add]
            split
            · rfl
            · rw [unit row bound c (by omega), if_neg (by omega), zero_div, mul_zero]
      · have kept := clearRow_other rows leftcols row current atRow
        rw [kept.1, kept.2]
        have here := before r rBound
        have same : (r = row ∨ r < j + 1) ↔ (r = row ∨ r < j) := by omega
        simpa only [same] using here
  intro r rBound
  have final := loop rows (Nat.le_refl _) r rBound
  simpa only [rBound, or_true, if_true] using final

end Row

theorem gaussElimRows_represents {rows leftcols k : ℕ} {m m' : Augmented} (bound : k ≤ rows)
    (run : (List.range k).foldlM (gaussElimRow rows leftcols) m = some m') :
    Represents rows leftcols m' (m.toSystem.eliminate k) ∧
      ∀ j < k, (m.toSystem.eliminate j).right j j ≠ 0 := by
  induction k generalizing m' with
  | zero =>
    cases run
    exact ⟨represents_toSystem rows leftcols m, fun j below => absurd below (Nat.not_lt_zero j)⟩
  | succ k ih =>
    rw [List.range_succ, List.foldlM_append] at run
    obtain ⟨middle, first, last⟩ := Option.bind_eq_some_iff.mp run
    obtain ⟨represents, pivots⟩ := ih (by omega) first
    have unit := System.UnitColumns.eliminate (n := rows) (by omega) pivots
    have single : gaussElimRow rows leftcols middle k = some m' := by
      simpa using last
    obtain ⟨nonzero, next⟩ := gaussElimRow_represents represents (by omega) unit single
    refine ⟨next, fun j below => ?_⟩
    rcases Nat.lt_or_eq_of_le (Nat.le_of_lt_succ below) with earlier | rfl
    · exact pivots j earlier
    · exact nonzero

theorem gaussElim_represents {rows leftcols : ℕ} {m m' : Augmented}
    (run : gaussElim rows leftcols m = some m') :
    Represents rows leftcols m' (m.toSystem.eliminate rows) ∧
      ∀ j < rows, (m.toSystem.eliminate j).right j j ≠ 0 :=
  gaussElimRows_represents (Nat.le_refl _) run

def recoveryValue (presentBases missingBases : List Gf16) (exponents : List (BitVec 16))
    (x y : ℕ → Galois16) (r : ℕ) : Galois16 :=
  (∑ c ∈ range presentBases.length,
      mk (presentBases.getD c 0) ^ (exponents.getD r 0).toNat * x c) +
    ∑ c ∈ range missingBases.length,
      mk (missingBases.getD c 0) ^ (exponents.getD r 0).toNat * y c

private theorem solveMatrices_solves (presentBases missingBases : List Gf16)
    (exponents : List (BitVec 16)) (x y : ℕ → Galois16) :
    (solveMatrices presentBases missingBases exponents).toSystem.Solves missingBases.length
      (presentBases.length + missingBases.length)
      (fun c => if c < presentBases.length then x c
        else recoveryValue presentBases missingBases exponents x y (c - presentBases.length))
      y := by
  intro r bound
  rw [Finset.sum_range_add]
  have presentPart : ∑ c ∈ range presentBases.length,
      (solveMatrices presentBases missingBases exponents).toSystem.left r c *
        (if c < presentBases.length then x c
          else recoveryValue presentBases missingBases exponents x y (c - presentBases.length)) =
      ∑ c ∈ range presentBases.length,
        mk (presentBases.getD c 0) ^ (exponents.getD r 0).toNat * x c := by
    apply sum_congr rfl
    intro c member
    have below := Finset.mem_range.mp member
    simp only [Augmented.toSystem, solveMatrices, if_pos below, mk_gf16Pow]
  have identityPart : ∑ c ∈ range missingBases.length,
      (solveMatrices presentBases missingBases exponents).toSystem.left r
          (presentBases.length + c) *
        (if presentBases.length + c < presentBases.length then x (presentBases.length + c)
          else recoveryValue presentBases missingBases exponents x y
            (presentBases.length + c - presentBases.length)) =
      recoveryValue presentBases missingBases exponents x y r := by
    rw [Finset.sum_eq_single_of_mem r (Finset.mem_range.mpr bound)]
    · simp only [Augmented.toSystem, solveMatrices, Nat.not_lt.mpr (Nat.le_add_right _ _),
        if_false, Nat.add_sub_cancel_left, if_true]
      exact one_mul _
    · intro c _ different
      simp only [Augmented.toSystem, solveMatrices, Nat.not_lt.mpr (Nat.le_add_right _ _),
        if_false, Nat.add_sub_cancel_left, if_neg different.symm]
      exact zero_mul _
  have rightPart : ∑ c ∈ range missingBases.length,
      (solveMatrices presentBases missingBases exponents).toSystem.right r c * y c =
      ∑ c ∈ range missingBases.length,
        mk (missingBases.getD c 0) ^ (exponents.getD r 0).toNat * y c := by
    apply sum_congr rfl
    intro c _
    simp only [Augmented.toSystem, solveMatrices, mk_gf16Pow]
  rw [presentPart, identityPart, rightPart, recoveryValue, ← add_assoc, add_self,
    zero_add]

/-- The coefficients of a successful `gf16_solve` express every missing value by
the present values and the recovery values. -/
theorem gf16Solve_eq {callocOk : Bool} {presentBases missingBases : List Gf16}
    {exponents : List (BitVec 16)} {coeffs : ℕ → ℕ → Gf16}
    (solved : gf16Solve callocOk presentBases missingBases exponents = some coeffs)
    (x y : ℕ → Galois16) {r : ℕ} (bound : r < missingBases.length) :
    y r = (∑ c ∈ range presentBases.length, mk (coeffs r c) * x c) +
      ∑ k ∈ range missingBases.length,
        mk (coeffs r (presentBases.length + k)) *
          recoveryValue presentBases missingBases exponents x y k := by
  have nonempty : missingBases.length ≠ 0 := by omega
  rw [gf16Solve, if_neg nonempty] at solved
  split at solved
  · obtain ⟨final, run, rfl⟩ := Option.map_eq_some_iff.mp solved
    obtain ⟨represents, pivots⟩ := gaussElim_represents run
    have unit := System.UnitColumns.eliminate (Nat.le_refl missingBases.length) pivots
    have start := solveMatrices_solves presentBases missingBases exponents x y
    have solution := (start.eliminate (Nat.le_refl _)).eq_of_unitColumns unit bound
    rw [solution, Finset.sum_range_add]
    congr 1
    · apply sum_congr rfl
      intro c member
      have below := Finset.mem_range.mp member
      rw [← (represents r bound).1 c (by omega), if_pos below]
    · apply sum_congr rfl
      intro c member
      have below := Finset.mem_range.mp member
      rw [← (represents r bound).1 _ (by omega), if_neg (by omega), Nat.add_sub_cancel_left]
  · contradiction

end NzbDownloader.Par2
