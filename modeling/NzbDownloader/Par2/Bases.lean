import NzbDownloader.Lib.Transition
import NzbDownloader.Par2.Gf16Field
import Mathlib.Data.Nat.Nth
import Mathlib.Data.Nat.Totient
import Mathlib.Tactic.NormNum.Prime

/-!
# The base values of the input blocks

`gf16_gcd` and `gf16_next_base` of `par2/rs.c`. Both loops are bounded searches here, with a
bound that is proved to be enough.
-/

namespace NzbDownloader.Par2

open Lib.Transition Nat Galois16

def gf16GcdLoop : ℕ → ℕ → ℕ → ℕ
  | 0, a, b => a + b
  | fuel + 1, a, b =>
      if a ≠ 0 ∧ b ≠ 0 then
        if a > b then gf16GcdLoop fuel (a % b) b else gf16GcdLoop fuel a (b % a)
      else a + b

def gf16Gcd (a b : ℕ) : ℕ :=
  if a ≠ 0 ∧ b ≠ 0 then gf16GcdLoop (a + b) a b else 0

def nextLogbase : ℕ → ℕ → ℕ
  | 0, logbase => logbase
  | fuel + 1, logbase =>
      if gf16Gcd gfLimit logbase ≠ 1 then nextLogbase fuel (logbase + 1) else logbase

def gf16NextBase (baseState : ℕ) : Option (Gf16 × ℕ) :=
  let logbase := nextLogbase gfLimit baseState
  if logbase ≥ gfLimit then none else some (gAntilog logbase, logbase + 1)

theorem gf16GcdLoop_eq (fuel a b : ℕ) (enough : a + b ≤ fuel) :
    gf16GcdLoop fuel a b = Nat.gcd a b := by
  induction fuel generalizing a b with
  | zero =>
    have zeroA : a = 0 := by omega
    have zeroB : b = 0 := by omega
    simp [gf16GcdLoop, zeroA, zeroB]
  | succ fuel ih =>
    unfold gf16GcdLoop
    split
    · split
      · have smaller : a % b < b := Nat.mod_lt a (by omega)
        rw [ih _ _ (by omega), ← Nat.gcd_rec, Nat.gcd_comm]
      · have smaller : b % a < a := Nat.mod_lt b (by omega)
        rw [ih _ _ (by omega), Nat.gcd_comm, ← Nat.gcd_rec]
    · rename_i stopped
      rcases Nat.eq_zero_or_pos a with zero | positive
      · simp [zero]
      · have zero : b = 0 := by
          by_contra nonzero
          exact stopped ⟨by omega, nonzero⟩
        simp [zero]

theorem gf16Gcd_gfLimit (logbase : ℕ) :
    gf16Gcd gfLimit logbase = 1 ↔ Nat.Coprime gfLimit logbase := by
  unfold gf16Gcd
  split
  · rw [gf16GcdLoop_eq _ _ _ (Nat.le_refl _)]
  rename_i stopped
  have zero : logbase = 0 := by
    by_contra nonzero
    exact stopped ⟨by decide, nonzero⟩
  simp [zero, gfLimit]

variable {logbase baseState n : ℕ}

theorem nextLogbase_spec {fuel k : ℕ} (reach : k ≤ logbase + fuel) (above : logbase ≤ k)
    (coprime : Nat.Coprime gfLimit k) :
    logbase ≤ nextLogbase fuel logbase ∧
      Nat.Coprime gfLimit (nextLogbase fuel logbase) ∧
      ∀ j, logbase ≤ j → j < nextLogbase fuel logbase → ¬Nat.Coprime gfLimit j := by
  induction fuel generalizing logbase with
  | zero =>
    have same : k = logbase := by omega
    subst same
    exact ⟨le_refl _, coprime, fun j low high => absurd high (by simpa [nextLogbase])⟩
  | succ fuel ih =>
    unfold nextLogbase
    split
    · rename_i failed
      rw [ne_eq, gf16Gcd_gfLimit] at failed
      have later : logbase + 1 ≤ k := by
        rcases eq_or_lt_of_le above with rfl | strict
        · exact absurd coprime failed
        · exact strict
      have within : k ≤ logbase + 1 + fuel := by omega
      obtain ⟨low, found, skipped⟩ := ih within later
      refine ⟨by omega, found, fun j lower upper => ?_⟩
      rcases eq_or_lt_of_le lower with rfl | strict
      · exact failed
      · exact skipped j strict upper
    · rename_i passed
      rw [not_not, gf16Gcd_gfLimit] at passed
      exact ⟨le_refl _, passed, fun j lower upper => absurd upper (by omega)⟩

theorem coprime_gfLimit_succ_mul (q : ℕ) : Nat.Coprime gfLimit (gfLimit * q + 1) := by
  rw [coprime_mul_left_add_right]
  exact coprime_one_right gfLimit

theorem nextLogbase_gfLimit (logbase : ℕ) :
    logbase ≤ nextLogbase gfLimit logbase ∧
      Nat.Coprime gfLimit (nextLogbase gfLimit logbase) ∧
      ∀ j, logbase ≤ j → j < nextLogbase gfLimit logbase → ¬Nat.Coprime gfLimit j := by
  have positive : 0 < gfLimit := by decide
  rcases Nat.eq_zero_or_pos logbase with rfl | nonzero
  · exact nextLogbase_spec (k := 1) (by omega) (by omega) (Nat.coprime_one_right gfLimit)
  -- The first number `≡ 1` at or above `logbase` lies within reach.
  have divided := Nat.div_add_mod (logbase - 1 + (gfLimit - 1)) gfLimit
  have remainder := Nat.mod_lt (logbase - 1 + (gfLimit - 1)) positive
  generalize (logbase - 1 + (gfLimit - 1)) / gfLimit = q at divided
  exact nextLogbase_spec (k := gfLimit * q + 1) (by omega) (by omega)
    (coprime_gfLimit_succ_mul q)

theorem nextLogbase_eq {k : ℕ} (above : logbase ≤ k) (coprime : Nat.Coprime gfLimit k)
    (skipped : ∀ j < k, logbase ≤ j → ¬Nat.Coprime gfLimit j) :
    nextLogbase gfLimit logbase = k := by
  obtain ⟨low, found, passed⟩ := nextLogbase_gfLimit logbase
  apply le_antisymm
  · exact not_lt.mp fun beyond => passed k above beyond coprime
  · exact not_lt.mp fun before => skipped _ before low found

theorem gf16NextBase_eq {k : ℕ} (above : logbase ≤ k) (coprime : Nat.Coprime gfLimit k)
    (small : k < gfLimit) (skipped : ∀ j < k, logbase ≤ j → ¬Nat.Coprime gfLimit j) :
    gf16NextBase logbase = some (gAntilog k, k + 1) := by
  rw [gf16NextBase, nextLogbase_eq above coprime skipped]
  exact if_neg (not_le.mpr small)

noncomputable def baseLog (n : ℕ) : ℕ :=
  nth (Nat.Coprime gfLimit) n

noncomputable def blockBase (n : ℕ) : Gf16 :=
  gAntilog (baseLog n)

/-- With `n` coprime numbers below the counter, the next call hands out the base
of block `n` and passes exactly one more coprime number. -/
theorem gf16NextBase_spec {out : Gf16} {next : ℕ}
    (count : Nat.count (Nat.Coprime gfLimit) baseState = n)
    (returns : gf16NextBase baseState = some (out, next)) :
    out = blockBase n ∧ Nat.count (Nat.Coprime gfLimit) next = n + 1 := by
  unfold gf16NextBase at returns
  dsimp only at returns
  split at returns
  · contradiction
  cases returns
  obtain ⟨above, coprime, skipped⟩ := nextLogbase_gfLimit baseState
  have same : Nat.count (Nat.Coprime gfLimit) (nextLogbase gfLimit baseState) = n := by
    have split := Nat.count_add (Nat.Coprime gfLimit) baseState
      (nextLogbase gfLimit baseState - baseState)
    rw [Nat.add_sub_cancel' above] at split
    rw [split, count]
    have none : Nat.count (fun k => Nat.Coprime gfLimit (baseState + k))
        (nextLogbase gfLimit baseState - baseState) = 0 := by
      rw [Nat.count_iff_forall_not]
      intro j bound
      exact skipped _ (by omega) (by omega)
    rw [none, Nat.add_zero]
  constructor
  · rw [blockBase, baseLog, ← same, Nat.nth_count coprime]
  · rw [Nat.count_succ, same, if_pos coprime]

theorem count_coprime_gfLimit : count (Nat.Coprime gfLimit) gfLimit = 32768 := by
  have factors : gfLimit = 3 * (5 * (17 * 257)) := by decide
  rw [count_eq_card_filter_range, ← totient_eq_card_coprime, factors,
    totient_mul (by decide), totient_mul (by decide), totient_mul (by decide),
    totient_prime (by norm_num), totient_prime (by norm_num),
    totient_prime (by norm_num), totient_prime (by norm_num)]

theorem exists_gf16NextBase (left : Nat.count (Nat.Coprime gfLimit) baseState < 32768) :
    ∃ base next, gf16NextBase baseState = some (base, next) := by
  obtain ⟨above, coprime, skipped⟩ := nextLogbase_gfLimit baseState
  have small : nextLogbase gfLimit baseState < gfLimit := by
    by_contra beyond
    -- Otherwise no usable logarithm is left between the counter and the limit.
    have same : Nat.count (Nat.Coprime gfLimit) gfLimit ≤
        Nat.count (Nat.Coprime gfLimit) baseState := by
      rcases Nat.le_total gfLimit baseState with far | near
      · exact Nat.count_monotone _ far
      have split := Nat.count_add (Nat.Coprime gfLimit) baseState (gfLimit - baseState)
      have none : Nat.count (fun k => Nat.Coprime gfLimit (baseState + k))
          (gfLimit - baseState) = 0 := by
        rw [Nat.count_iff_forall_not]
        intro j bound
        exact skipped _ (by omega) (by omega)
      rw [Nat.add_sub_cancel' near, none, Nat.add_zero] at split
      exact split.le
    rw [count_coprime_gfLimit] at same
    omega
  refine ⟨gAntilog (nextLogbase gfLimit baseState), nextLogbase gfLimit baseState + 1, ?_⟩
  rw [gf16NextBase]
  exact if_neg (Nat.not_le.mpr small)

def GcdEnds : ℕ × ℕ → ℕ × ℕ → Prop :=
  LoopEnds (fun s => s.1 ≠ 0 ∧ s.2 ≠ 0)
    fun s => if s.1 > s.2 then (s.1 % s.2, s.2) else (s.1, s.2 % s.1)

def LogbaseEnds : ℕ → ℕ → Prop :=
  LoopEnds (fun logbase => gf16Gcd gfLimit logbase ≠ 1) fun logbase => (logbase + 1) % 2 ^ 32

theorem gcdEnds_gf16GcdLoop {fuel a b : ℕ} (enough : a + b ≤ fuel) :
    ∃ a' b', GcdEnds (a, b) (a', b') ∧ gf16GcdLoop fuel a b = a' + b' := by
  induction fuel generalizing a b with
  | zero => exact ⟨a, b, .exit (by simp; omega), rfl⟩
  | succ fuel ih =>
    unfold gf16GcdLoop
    split
    · rename_i both
      -- The larger number becomes a remainder, so the sum decreases.
      split
      · rename_i larger
        have smaller : a % b < b := mod_lt a (by omega)
        obtain ⟨a', b', ends, result⟩ := ih (by omega : a % b + b ≤ fuel)
        exact ⟨a', b', .round both (by rwa [if_pos larger]), result⟩
      · rename_i larger
        have smaller : b % a < a := mod_lt b (by omega)
        obtain ⟨a', b', ends, result⟩ := ih (by omega : a + b % a ≤ fuel)
        exact ⟨a', b', .round both (by rwa [if_neg larger]), result⟩
    · rename_i stopped
      exact ⟨a, b, .exit stopped, rfl⟩

theorem logbaseEnds_nextLogbase {fuel logbase k : ℕ} (reach : k ≤ logbase + fuel)
    (above : logbase ≤ k) (coprime : Nat.Coprime gfLimit k) (word : k < 2 ^ 32) :
    LogbaseEnds logbase (nextLogbase fuel logbase) := by
  induction fuel generalizing logbase with
  | zero =>
    have same : k = logbase := by omega
    subst same
    exact .exit (not_not.mpr ((gf16Gcd_gfLimit k).mpr coprime))
  | succ fuel ih =>
    unfold nextLogbase
    split
    · rename_i failed
      have later : logbase ≠ k := by
        rintro rfl
        exact failed ((gf16Gcd_gfLimit logbase).mpr coprime)
      refine .round failed ?_
      rw [mod_eq_of_lt (by omega)]
      exact ih (by omega) (by omega)
    · rename_i passed
      exact .exit passed

theorem exists_logbaseEnds (word : baseState < 2 ^ 32) :
    ∃ logbase, LogbaseEnds baseState logbase := by
  have last : Nat.Coprime gfLimit (2 ^ 32 - 2) := by decide
  rcases lt_or_eq_of_le (le_sub_one_of_lt word) with below | rfl
  · exact ⟨_, @logbaseEnds_nextLogbase (2 ^ 32) _ _ (by omega) (by omega) last (by decide)⟩
  · exact ⟨_, .round (by decide) (@logbaseEnds_nextLogbase 1 _ 1 (by decide)
      (by decide) (coprime_one_right gfLimit) (by decide))⟩

def baseStateAfter : ℕ → ℕ
  | 0 => 0
  | n + 1 => ((gf16NextBase (baseStateAfter n)).map Prod.snd).getD (baseStateAfter n)

theorem gf16NextBase_baseStateAfter (few : n < 32768) :
    Nat.count (Nat.Coprime gfLimit) (baseStateAfter n) = n ∧
      gf16NextBase (baseStateAfter n) = some (blockBase n, baseStateAfter (n + 1)) := by
  have count : Nat.count (Nat.Coprime gfLimit) (baseStateAfter n) = n := by
    induction n with
    | zero => rfl
    | succ n ih =>
      have before := ih (by omega)
      obtain ⟨base, next, returns⟩ := exists_gf16NextBase (before.trans_lt (by omega))
      rw [baseStateAfter, returns]
      exact (gf16NextBase_spec before returns).2
  obtain ⟨base, next, returns⟩ := exists_gf16NextBase (count.trans_lt few)
  refine ⟨count, ?_⟩
  rw [baseStateAfter, returns, (gf16NextBase_spec count returns).1]
  rfl

theorem gf16NextBase_le {next : ℕ} {out : Gf16}
    (returns : gf16NextBase baseState = some (out, next)) : next ≤ gfLimit := by
  unfold gf16NextBase at returns
  dsimp only at returns
  split at returns
  · contradiction
  · cases returns
    omega

theorem gf16NextBase_eq_none (many : 32768 ≤ n) :
    gf16NextBase (baseStateAfter n) = none ∧ baseStateAfter (n + 1) = baseStateAfter n := by
  have stays {m : ℕ} (none : gf16NextBase (baseStateAfter m) = none) :
      baseStateAfter (m + 1) = baseStateAfter m := by
    rw [baseStateAfter, none]
    rfl
  have fails : gf16NextBase (baseStateAfter n) = none := by
    induction n, many using Nat.le_induction with
    | base =>
      obtain ⟨count, returns⟩ := gf16NextBase_baseStateAfter (n := 32767) (by decide)
      have used := (gf16NextBase_spec count returns).2
      by_contra some
      obtain ⟨⟨out, next⟩, again⟩ := Option.ne_none_iff_exists'.mp some
      have more := (gf16NextBase_spec used again).2
      have bound := Nat.count_monotone (Nat.Coprime gfLimit) (gf16NextBase_le again)
      rw [more, count_coprime_gfLimit] at bound
      omega
    | succ n _ ih => rw [stays ih, ih]
  exact ⟨fails, stays fails⟩

theorem logbaseEnds_baseStateAfter (n : ℕ) :
    LogbaseEnds (baseStateAfter n) (nextLogbase gfLimit (baseStateAfter n)) := by
  have bound : baseStateAfter n ≤ gfLimit := by
    induction n with
    | zero => decide
    | succ n ih =>
      rw [baseStateAfter]
      rcases call : gf16NextBase (baseStateAfter n) with _ | ⟨out, next⟩
      · exact ih
      · exact gf16NextBase_le call
  rcases Nat.eq_zero_or_pos (baseStateAfter n) with zero | positive
  · rw [zero]
    exact logbaseEnds_nextLogbase (k := 1) (by decide) (by decide)
      (Nat.coprime_one_right gfLimit) (by decide)
  · exact logbaseEnds_nextLogbase (k := gfLimit * 1 + 1) (by omega) (by omega)
      (coprime_gfLimit_succ_mul 1) (by decide)

theorem infinite_coprime_gfLimit : {k | Nat.Coprime gfLimit k}.Infinite := by
  apply Set.infinite_of_injective_forall_mem (f := fun q => gfLimit * q + 1)
  · intro q q' same
    exact Nat.eq_of_mul_eq_mul_left (by decide) (Nat.succ.inj same)
  · exact coprime_gfLimit_succ_mul

theorem baseLog_lt (few : n < 32768) : baseLog n < gfLimit :=
  nth_lt_of_lt_count (by rwa [count_coprime_gfLimit])

theorem mk_blockBase (few : n < 32768) :
    mk (blockBase n) = cyclicLog.exp (baseLog n) :=
  mk_gAntilog (baseLog_lt few)

theorem blockBase_injective {m : ℕ} (mFew : m < 32768) (nFew : n < 32768)
    (same : blockBase m = blockBase n) : m = n := by
  apply nth_injective infinite_coprime_gfLimit
  by_contra different
  refine exp_ne_exp (baseLog_lt mFew) (baseLog_lt nFew) different ?_
  rw [← mk_blockBase mFew, ← mk_blockBase nFew, same]

theorem orderOf_blockBase (few : n < 32768) : orderOf (mk (blockBase n)) = gfLimit := by
  have coprime : Nat.Coprime gfLimit (baseLog n) :=
    nth_mem_of_infinite infinite_coprime_gfLimit n
  have one_iff (e : ℕ) : mk (blockBase n) ^ e = 1 ↔ gfLimit ∣ e := by
    rw [mk_blockBase few, exp_pow]
    change _ = cyclicLog.exp 0 ↔ _
    rw [exp_eq_exp_iff, zero_mod, ← dvd_iff_mod_eq_zero, coprime.dvd_mul_left]
  apply dvd_antisymm
  · exact orderOf_dvd_of_pow_eq_one ((one_iff gfLimit).mpr dvd_rfl)
  · exact (one_iff _).mp (pow_orderOf_eq_one _)

/-- The calls from a counter of zero: the loops end, the first 32768 calls hand
out the antilogarithms of the numbers coprime to `65535` in order, distinct and
primitive, and every later call fails and leaves the counter. -/
theorem gf16NextBase_run :
    (∀ a b, ∃ a' b', GcdEnds (a, b) (a', b')) ∧
      (∀ baseState < 2 ^ 32, ∃ logbase, LogbaseEnds baseState logbase) ∧
      (∀ n, LogbaseEnds (baseStateAfter n) (nextLogbase gfLimit (baseStateAfter n))) ∧
      (∀ n < 32768, gf16NextBase (baseStateAfter n) =
          some (gAntilog (nth (Nat.Coprime 65535) n), baseStateAfter (n + 1)) ∧
        gAntilog (nth (Nat.Coprime 65535) n) ≠ 0 ∧
        orderOf (mk (gAntilog (nth (Nat.Coprime 65535) n))) = 65535) ∧
      (∀ m < 32768, ∀ n < 32768, gAntilog (nth (Nat.Coprime 65535) m) =
        gAntilog (nth (Nat.Coprime 65535) n) → m = n) ∧
      ∀ n ≥ 32768, gf16NextBase (baseStateAfter n) = none ∧
        baseStateAfter (n + 1) = baseStateAfter n := by
  refine ⟨fun a b => ?_, fun _ => exists_logbaseEnds, logbaseEnds_baseStateAfter,
    fun n few => ⟨(gf16NextBase_baseStateAfter few).2, ?_, orderOf_blockBase few⟩,
    fun m mFew n nFew => blockBase_injective mFew nFew, fun n => gf16NextBase_eq_none⟩
  · obtain ⟨a', b', ends, -⟩ := gcdEnds_gf16GcdLoop (le_refl (a + b))
    exact ⟨a', b', ends⟩
  · intro zero
    have order := orderOf_blockBase few
    rw [blockBase, baseLog, show gfLimit = 65535 from rfl, zero] at order
    have vanishes := pow_orderOf_eq_one (mk 0)
    rw [order] at vanishes
    exact zero_ne_one ((zero_pow (by decide : 65535 ≠ 0)).symm.trans vanishes)

theorem gf16NextBase_run_end :
    orderOf (mk (gAntilog (nth (Nat.Coprime 65535) 32767))) = 65535 ∧
      gf16NextBase (baseStateAfter 32768) = none :=
  ⟨(gf16NextBase_run.2.2.2.1 32767 (by decide)).2.2,
    (gf16NextBase_run.2.2.2.2.2 32768 le_rfl).1⟩

end NzbDownloader.Par2
