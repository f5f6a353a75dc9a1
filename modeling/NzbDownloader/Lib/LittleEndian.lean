import NzbDownloader.Lib.ByteFile

/-!
# Little-endian numbers

Numbers as fixed-width byte strings, least significant byte first, and their
reading as two's complement.
-/

namespace NzbDownloader.Lib

def ofLe : Bytes → ℕ
  | [] => 0
  | b :: rest => b.toNat + 256 * ofLe rest

def toLe : ℕ → ℕ → Bytes
  | 0, _ => []
  | width + 1, n => BitVec.ofNat 8 n :: toLe width (n / 256)

def signed64 (n : ℕ) : ℤ :=
  (BitVec.ofNat 64 n).toInt

@[simp]
theorem length_toLe (width n : ℕ) : (toLe width n).length = width := by
  induction width generalizing n with
  | zero => rfl
  | succ width ih => rw [toLe, List.length_cons, ih]

theorem ofLe_toLe (width n : ℕ) : ofLe (toLe width n) = n % 256 ^ width := by
  induction width generalizing n with
  | zero => rw [toLe, ofLe, pow_zero, Nat.mod_one]
  | succ width ih =>
    rw [toLe, ofLe, ih, BitVec.toNat_ofNat, pow_succ' 256 width, Nat.mod_mul]

theorem ofLe_lt (bytes : Bytes) : ofLe bytes < 256 ^ bytes.length := by
  induction bytes with
  | nil => simp [ofLe]
  | cons b rest ih =>
    rw [ofLe, List.length_cons, pow_succ]
    omega

theorem signed64_of_lt {n : ℕ} (small : n < 2 ^ 63) : signed64 n = n := by
  rw [signed64, BitVec.toInt_eq_toNat_of_lt] <;> rw [BitVec.toNat_ofNat, Nat.mod_eq_of_lt] <;> omega

end NzbDownloader.Lib
