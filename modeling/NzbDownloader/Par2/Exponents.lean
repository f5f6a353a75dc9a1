import NzbDownloader.Par2.ScanOrder
import NzbDownloader.Par2.Selection

/-!
# The exponents that the solver gets

A slice declares an exponent of 32 bits, and `par2_repair_set` passes its lower 16 bits
to `gf16_solve`.
-/

namespace NzbDownloader.Par2

open Lib Lib.Effect Galois16 Par2Slice List

def Par2Slice.Narrow (s : Par2Slice) : Prop :=
  s.declared < 65536 ∨ 65535 * 65536 < s.declared

theorem accept_exponent (s : Par2Slice) : s.accept.exponent.toNat = s.declared % 65536 :=
  BitVec.toNat_setWidth 16 s.exponent

theorem Par2Slice.declared_lt (s : Par2Slice) : s.declared < 4294967296 :=
  s.exponent.isLt

theorem narrow_of_powers {s : Par2Slice}
    (powers : ∀ b, mk (gf16Pow b s.accept.exponent) = mk b ^ s.declared) :
    s.Narrow := by
  have generator := powers (gAntilog 1)
  rw [mk_gf16Pow, accept_exponent, mk_gAntilog (by decide), exp_pow,
    exp_pow, exp_eq_exp_iff, one_mul, one_mul] at generator
  change _ % 65535 = _ % 65535 at generator
  have zero := powers 0
  rw [mk_gf16Pow, accept_exponent] at zero
  have notExact : s.declared ≠ 65535 * 65536 := by
    intro exact
    rw [exact] at zero
    change (0 : Galois16) ^ 0 = 0 ^ (65535 * 65536) at zero
    rw [pow_zero, zero_pow (by decide)] at zero
    exact one_ne_zero zero
  rw [Par2Slice.Narrow]
  omega

theorem Par2Slice.Narrow.powers {s : Par2Slice} (narrow : s.Narrow) (b : Gf16) :
    Galois16.mk (gf16Pow b s.accept.exponent) = Galois16.mk b ^ s.declared := by
  have bound := s.declared_lt
  rw [Galois16.mk_gf16Pow, accept_exponent]
  by_cases zero : b = 0
  · rcases narrow with small | large
    · rw [Nat.mod_eq_of_lt small]
    · have positive : s.declared % 65536 ≠ 0 := by omega
      rw [zero]
      change (0 : Galois16) ^ _ = 0 ^ _
      rw [zero_pow positive, zero_pow (by omega)]
  · rw [← Galois16.exp_gLog zero, Galois16.exp_pow, Galois16.exp_pow, Galois16.exp_eq_exp_iff]
    have cut : s.declared % 65536 ≡ s.declared [MOD gfLimit] := by
      change _ % 65535 = _ % 65535
      rw [Par2Slice.Narrow] at narrow
      omega
    exact cut.mul_left _

/-- The accepted slices are the given ones, the exponents passed for them ascend, and their
powers are those of the declared exponents. -/
structure PassedRight (taken : List Par2Slice) (accepted : List AcceptedSlice) : Prop where
  slices : accepted = taken.map accept
  ascending : (accepted.map fun a => a.exponent.toNat).Pairwise (· < ·)
  powers : ∀ s ∈ taken, ∀ b,
    mk (gf16Pow b s.accept.exponent) = mk b ^ s.declared

structure KeepExponents (taken : List Par2Slice) : Prop where
  narrow : ∀ s ∈ taken, s.Narrow
  order : ∀ s ∈ taken, ∀ t ∈ taken, s.declared < 65536 → 65535 * 65536 < t.declared →
    s.declared + 65535 * 65536 < t.declared

theorem passedRight_iff {taken : List Par2Slice}
    (ascend : taken.Pairwise fun s t => s.declared < t.declared) :
    PassedRight taken (taken.map accept) ↔ KeepExponents taken := by
  have order : ((taken.map accept).map fun a => a.exponent.toNat).Pairwise (· < ·) ↔
      ∀ s ∈ taken, ∀ t ∈ taken, s.declared < t.declared →
        s.declared % 65536 < t.declared % 65536 := by
    rw [map_map, pairwise_map, ← pairwise_iff_of_ascend ascend]
    simp only [Function.comp_apply, accept_exponent]
  constructor
  · intro passed
    have narrow : ∀ s ∈ taken, s.Narrow := fun s member => narrow_of_powers (passed.powers s member)
    refine ⟨narrow, fun s isS t isT small large => ?_⟩
    have less := order.mp passed.ascending s isS t isT (by omega)
    omega
  · intro keep
    refine ⟨rfl, order.mpr fun s isS t isT less => ?_, fun s member => (keep.narrow s member).powers⟩
    have bound := t.declared_lt
    rcases keep.narrow s isS with smallS | largeS
    · rcases keep.narrow t isT with smallT | largeT
      · omega
      · have beyond := keep.order s isS t isT smallS largeT
        omega
    · omega

section Passed

variable {env : Env} {set : Par2Set} {disk : String → Option Bytes} {passes : Par2Slice → Bool}

variable (set passes) in
def lowestUsable (need : ℕ) : List Par2Slice :=
  ((tried set.slices).filter (usable set passes)).take need

theorem lowestUsable_ascend (sorted : Sorted set.slices) (need : ℕ) :
    (lowestUsable set passes need).Pairwise fun s t => s.declared < t.declared :=
  ((runHeads_ascend sorted).filter _).sublist (take_sublist _ _)

/-- If enough slices are accepted, the exponents passed to the solver ascend and have the
powers of the declared ones exactly if cutting them keeps them, in value and in order. -/
theorem passed_exponents_iff (steady : Steady env disk passes) (sorted : Sorted set.slices)
    (need : ℕ) :
    (∀ w accepted w', w.disk = disk →
      Returns (selectSlices env set need set.slices none []) w accepted w' →
      need ≤ accepted.length → PassedRight (lowestUsable set passes need) accepted) ↔
    (need ≤ (lowestUsable set passes need).length →
      KeepExponents (lowestUsable set passes need)) := by
  rw [← passedRight_iff (lowestUsable_ascend sorted need)]
  constructor
  · intro passed enough
    obtain ⟨w', returns, -⟩ := selectSlices_answers steady set.slices ⟨disk, 0⟩ rfl
    exact passed _ _ w' rfl returns (by rwa [length_map])
  · intro right w accepted w' here returns enough
    obtain ⟨w'', returns', -⟩ := selectSlices_answers steady set.slices _ here
    obtain rfl := (returns.unique returns').1
    exact right (by rwa [length_map] at enough)

end Passed

theorem passed_exponents_low : ∃ accepted w',
    Returns (selectSlices smoothEnv (oneBlock [sliceOfVolume 0 0, sliceOfVolume 3 0]) 2
      [sliceOfVolume 0 0, sliceOfVolume 3 0] none []) ⟨oneVolume, 0⟩ accepted w' ∧
    PassedRight [sliceOfVolume 0 0, sliceOfVolume 3 0] accepted := by
  have lowest : lowestUsable (oneBlock [sliceOfVolume 0 0, sliceOfVolume 3 0])
      (sliceIntact smoothEnv oneVolume) 2 = [sliceOfVolume 0 0, sliceOfVolume 3 0] := rfl
  have keep : KeepExponents [sliceOfVolume 0 0, sliceOfVolume 3 0] := by
    constructor
    · intro s member
      simp only [mem_cons, not_mem_nil, or_false] at member
      rcases member with rfl | rfl <;> exact .inl (by decide)
    · intro s _ t member _ large
      simp only [mem_cons, not_mem_nil, or_false] at member
      rcases member with rfl | rfl <;> exact absurd large (by decide)
  have sorted : Sorted (oneBlock [sliceOfVolume 0 0, sliceOfVolume 3 0]).slices := by decide
  have passed := (passed_exponents_iff (steady_of_no_failure (fun _ => rfl) oneVolume)
    sorted 2).mpr fun _ => lowest.symm ▸ keep
  obtain ⟨accepted, w', returns, length⟩ : ∃ accepted w',
      Returns (selectSlices smoothEnv (oneBlock [sliceOfVolume 0 0, sliceOfVolume 3 0]) 2
        [sliceOfVolume 0 0, sliceOfVolume 3 0] none []) ⟨oneVolume, 0⟩ accepted w' ∧
      2 ≤ accepted.length := ⟨_, _, rfl, by decide⟩
  have right := passed _ accepted w' rfl returns length
  rw [lowest] at right
  exact ⟨accepted, w', returns, right⟩

def farPackets : List Packet :=
  [smallA.packet typeMain (toLe 8 4 ++ toLe 4 1 ++ smallA.id) length_typeMain,
    smallA.packet typeFiledesc
      (smallA.id ++ smallA.sum ++ smallA.sum ++ toLe 8 8 ++ [97, 0, 0, 0]) length_typeFiledesc,
    smallA.packet typeRecovery (toLe 4 1 ++ [1, 2, 3, 4]) length_typeRecovery,
    smallA.packet typeRecovery (toLe 4 65536 ++ [5, 6, 7, 8]) length_typeRecovery]

def farDisk (path : String) : Option Bytes :=
  if path = "d/a.par2" then some (farPackets.flatMap (Packet.encode smoothEnv.md5)) else none

def selectForDamage (env : Env) (set : Par2Set) (files : List RepairFile) :
    RepairM (List AcceptedSlice) := do
  let found ← findDamage env set files
  selectSlices env set (missingCount set found.2) set.slices none []

theorem far_exponent_cut : ∃ set,
    par2ScanDir 8 smoothEnv.md5 (·.insertionSort fun a b => a.exponent ≤ b.exponent) farDisk "d"
      (some ["a.par2"]) = some set ∧
    set.slices.map declared = [1, 65536] ∧
    ∃ accepted w', Returns (selectForDamage smoothEnv set.toPar2Set [⟨"a", "d/a"⟩])
      ⟨farDisk, 0⟩ accepted w' ∧ accepted.map (·.exponent.toNat) = [1, 0] := by
  have run : (par2ScanDir 8 smoothEnv.md5 (·.insertionSort fun a b => a.exponent ≤ b.exponent)
      farDisk "d" (some ["a.par2"])).any (fun set =>
        set.slices.map declared = [1, 65536] ∧
          endsWith (selectForDamage smoothEnv set.toPar2Set [⟨"a", "d/a"⟩]) ⟨farDisk, 0⟩
            fun accepted _ => accepted.map (·.exponent.toNat) = [1, 0]) = true := by
    decide +kernel
  obtain ⟨set, scanned, facts⟩ := (Option.any_eq_true _ _).mp run
  obtain ⟨declared, ends⟩ := of_decide_eq_true facts
  obtain ⟨accepted, w', returns, passed⟩ := exists_returns_of_endsWith ends
  exact ⟨set, scanned, declared, accepted, w', returns, of_decide_eq_true passed⟩

end NzbDownloader.Par2
