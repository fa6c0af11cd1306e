/-
# Cyclic redundancy checks

A register of `w` bits that is shifted to the right, where a bit that falls out adds the
polynomial (`crcShift`).  A check takes chunks of `k` bits, each added to the low end of the
register before `k` shifts (`crc`).

A shift is linear over exclusive or, and a register whose low bits are clear is only shifted, so
that the shifts of a chunk are those of the low bits and the others moved down
(`iterate_crcShift`).  A table of the shifts of all chunks does the same in one step
(`foldl_crcLookup`).
-/

import Mathlib.Logic.Function.Iterate

namespace Dukserver
namespace Lib

variable {w k : ℕ}

/-- One shift of the register. -/
def crcShift (poly r : BitVec w) : BitVec w :=
  if r.getLsbD 0 then (r >>> 1) ^^^ poly else r >>> 1

/-- A chunk, bit by bit. -/
def crcChunk (poly r : BitVec w) (c : BitVec k) : BitVec w :=
  (crcShift poly)^[k] (r ^^^ c.setWidth w)

/-- The check of a list of chunks. -/
def crc (poly init : BitVec w) (chunks : List (BitVec k)) : BitVec w :=
  chunks.foldl (crcChunk poly) init

/-- A chunk, by a table. -/
def crcLookup (table : BitVec k → BitVec w) (r : BitVec w) (c : BitVec k) : BitVec w :=
  table ((r ^^^ c.setWidth w).setWidth k) ^^^ (r >>> k)

variable {poly x y r init : BitVec w} {table : BitVec k → BitVec w} {n : ℕ}

/-- **A shift is linear**: the polynomial is added for each of two bits that
fall out, and so not at all for both. -/
theorem crcShift_xor (poly x y : BitVec w) :
    crcShift poly (x ^^^ y) = crcShift poly x ^^^ crcShift poly y := by
  have hshift : (x ^^^ y) >>> 1 = (x >>> 1) ^^^ (y >>> 1) := BitVec.ushiftRight_xor_distrib ..
  have hbit : (x ^^^ y).getLsbD 0 = (x.getLsbD 0 ^^ y.getLsbD 0) := BitVec.getLsbD_xor
  unfold crcShift
  rw [hshift, hbit]
  rcases x.getLsbD 0 with - | - <;> rcases y.getLsbD 0 with - | -
  · rfl
  · exact BitVec.xor_assoc ..
  · change (x >>> 1 ^^^ y >>> 1) ^^^ poly = (x >>> 1 ^^^ poly) ^^^ y >>> 1
    ac_rfl
  · -- the polynomial is added twice
    have htwice : (x >>> 1 ^^^ poly) ^^^ (y >>> 1 ^^^ poly) =
        (x >>> 1 ^^^ y >>> 1) ^^^ (poly ^^^ poly) := by ac_rfl
    change _ = (x >>> 1 ^^^ poly) ^^^ (y >>> 1 ^^^ poly)
    rw [htwice, BitVec.xor_self, BitVec.xor_zero]
    rfl

/-- So are several shifts. -/
theorem iterate_crcShift_xor (poly x y : BitVec w) (n : ℕ) :
    (crcShift poly)^[n] (x ^^^ y) = (crcShift poly)^[n] x ^^^ (crcShift poly)^[n] y := by
  induction n with
  | zero => rfl
  | succ n ih => rw [Function.iterate_succ_apply', Function.iterate_succ_apply',
      Function.iterate_succ_apply', ih, crcShift_xor]

/-- As long as the bits that fall out are clear, the register is only shifted.
The polynomial is added for a bit that is set, and for no other. -/
theorem iterate_crcShift_clear (h : ∀ i < n, r.getLsbD i = false) :
    (crcShift poly)^[n] r = r >>> n := by
  induction n with
  | zero => exact (BitVec.ushiftRight_zero r).symm
  | succ n ih =>
    have hbit : (r >>> n).getLsbD 0 = false := by
      rw [BitVec.getLsbD_ushiftRight, Nat.add_zero]
      exact h n (Nat.lt_succ_self n)
    rw [Function.iterate_succ_apply', ih fun i hi => h i (Nat.lt_succ_of_lt hi), crcShift, hbit,
      if_neg Bool.noConfusion, BitVec.shiftRight_add]

/-- A chunk has no bits behind its own. -/
theorem setWidth_shiftRight (c : BitVec k) : c.setWidth w >>> k = 0#w := by
  refine BitVec.eq_of_getLsbD_eq fun i hi => ?_
  rw [BitVec.getLsbD_ushiftRight, BitVec.getLsbD_setWidth,
    BitVec.getLsbD_of_ge c (k + i) (Nat.le_add_right k i), Bool.and_false, BitVec.getLsbD_zero]

/-- **The shifts of a chunk are those of the low bits**, with the others moved
down: the register is the sum of the two, and a shift is linear. -/
theorem iterate_crcShift (poly r : BitVec w) (k : ℕ) :
    (crcShift poly)^[k] r = (crcShift poly)^[k] ((r.setWidth k).setWidth w) ^^^ (r >>> k) := by
  have hsplit : r = (r.setWidth k).setWidth w ^^^ (r ^^^ (r.setWidth k).setWidth w) := by
    rw [BitVec.xor_comm r, ← BitVec.xor_assoc, BitVec.xor_self, BitVec.zero_xor]
  have hclear : ∀ i < k, (r ^^^ (r.setWidth k).setWidth w).getLsbD i = false := by
    intro i hi
    rw [BitVec.getLsbD_xor, BitVec.getLsbD_setWidth, BitVec.getLsbD_setWidth]
    by_cases hiw : i < w
    · simp [hi, hiw]
    · simp [hiw, BitVec.getLsbD_of_ge r i (Nat.le_of_not_lt hiw)]
  calc (crcShift poly)^[k] r
      = (crcShift poly)^[k] ((r.setWidth k).setWidth w ^^^ (r ^^^ (r.setWidth k).setWidth w)) :=
        congrArg _ hsplit
    _ = (crcShift poly)^[k] ((r.setWidth k).setWidth w) ^^^
          (r ^^^ (r.setWidth k).setWidth w) >>> k := by
        rw [iterate_crcShift_xor, iterate_crcShift_clear hclear]
    _ = (crcShift poly)^[k] ((r.setWidth k).setWidth w) ^^^ (r >>> k) := by
        rw [BitVec.ushiftRight_xor_distrib r, setWidth_shiftRight, BitVec.xor_zero]

/-- A table that has the shifts of each chunk gives the step of a chunk. -/
theorem crcLookup_eq_crcChunk (h : ∀ b, table b = (crcShift poly)^[k] (b.setWidth w))
    (r : BitVec w) (c : BitVec k) : crcLookup table r c = crcChunk poly r c := by
  rw [crcLookup, crcChunk, h, iterate_crcShift poly (r ^^^ c.setWidth w),
    BitVec.ushiftRight_xor_distrib r, setWidth_shiftRight, BitVec.xor_zero]

/-- **The check by a table is the check bit by bit**, chunk by chunk. -/
theorem foldl_crcLookup (h : ∀ b, table b = (crcShift poly)^[k] (b.setWidth w))
    (init : BitVec w) (chunks : List (BitVec k)) :
    chunks.foldl (crcLookup table) init = crc poly init chunks := by
  have hstep : crcLookup table = crcChunk poly := by
    funext r c
    exact crcLookup_eq_crcChunk h r c
  rw [hstep, crc]

end Lib
end Dukserver
