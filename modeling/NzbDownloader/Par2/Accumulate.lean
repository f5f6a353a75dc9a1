import NzbDownloader.Lib.ByteFile
import NzbDownloader.Par2.Gf16Field

/-!
# Accumulating a multiple of one buffer into another

`gf16_mul_acc` of `par2/rs.c`, and its effect on the 16-bit words of the
buffers.
-/

namespace NzbDownloader.Par2

open Lib

def gf16MulAccLoop (factor : Gf16) : Bytes → Bytes → Bytes
  | d0 :: d1 :: dst, s0 :: s1 :: src =>
      let sv := leWord s0 s1
      let dv := leWord d0 d1
      let out := dv ^^^ gf16Mul sv factor
      (out &&& 0xff).setWidth 8 :: (out >>> 8).setWidth 8 :: gf16MulAccLoop factor dst src
  | dst, _ => dst

def gf16MulAcc (dst src : Bytes) (factor : Gf16) : Bytes :=
  if factor = 0 then dst else gf16MulAccLoop factor dst src

theorem length_gf16MulAccLoop (factor : Gf16) (dst src : Bytes) :
    (gf16MulAccLoop factor dst src).length = dst.length := by
  fun_induction gf16MulAccLoop factor dst src with
  | case1 d0 d1 dst s0 s1 src sv dv out ih => simp [ih]
  | case2 dst src _ => rfl

@[simp]
theorem length_gf16MulAcc (dst src : Bytes) (factor : Gf16) :
    (gf16MulAcc dst src factor).length = dst.length := by
  unfold gf16MulAcc
  split
  · rfl
  · exact length_gf16MulAccLoop factor dst src

theorem wordAt_gf16MulAccLoop (factor : Gf16) (dst src : Bytes) {w : ℕ}
    (inDst : 2 * w + 1 < dst.length) (inSrc : 2 * w + 1 < src.length) :
    wordAt (gf16MulAccLoop factor dst src) w =
      wordAt dst w ^^^ gf16Mul (wordAt src w) factor := by
  induction dst, src using gf16MulAccLoop.induct factor generalizing w with
  | case1 d0 d1 dst s0 s1 src ih =>
    rw [gf16MulAccLoop]
    cases w with
    | zero =>
      exact leWord_split _
    | succ w =>
      simp only [List.length_cons] at inDst inSrc
      exact ih (by omega) (by omega)
  | case2 dst src short =>
    -- Both buffers still hold a word, so the loop has not stopped.
    exfalso
    match dst, src with
    | d0 :: d1 :: dst, s0 :: s1 :: src => exact short d0 d1 dst s0 s1 src rfl rfl
    | [], _ => simp at inDst
    | [_], _ => simp at inDst
    | _ :: _ :: _, [] => simp at inSrc
    | _ :: _ :: _, [_] => simp at inSrc

theorem mk_wordAt_gf16MulAcc (factor : Gf16) {dst src : Bytes} {w : ℕ}
    (inDst : 2 * w + 1 < dst.length) (inSrc : 2 * w + 1 < src.length) :
    Galois16.mk (wordAt (gf16MulAcc dst src factor) w) =
      ⟨wordAt dst w⟩ + ⟨factor⟩ * ⟨wordAt src w⟩ := by
  unfold gf16MulAcc
  split
  · rename_i zero
    rw [zero, show Galois16.mk 0 = 0 from rfl, zero_mul, add_zero]
  · rw [wordAt_gf16MulAccLoop factor dst src inDst inSrc, Galois16.mk_xor, Galois16.mk_gf16Mul,
      mul_comm]

end NzbDownloader.Par2
