import Mathlib.Data.Nat.Notation

/-! # Fields of words

A word that is put together from fields has each of them where it was put. -/

namespace LispDos.Foundation

variable {n w start len : ℕ}

/-- A field in the lower part. -/
theorem field_low (x : BitVec n) (y : BitVec w) (h : start + len ≤ w) :
    (x ++ y).extractLsb' start len = y.extractLsb' start len := by
  apply BitVec.eq_of_getLsbD_eq
  intro i hi
  simp only [BitVec.getLsbD_extractLsb', BitVec.getLsbD_append]
  rw [if_pos (by omega)]

/-- A field in the upper part. -/
theorem field_high (x : BitVec n) (y : BitVec w) (h : w ≤ start) :
    (x ++ y).extractLsb' start len = x.extractLsb' (start - w) len := by
  apply BitVec.eq_of_getLsbD_eq
  intro i hi
  simp only [BitVec.getLsbD_extractLsb', BitVec.getLsbD_append]
  rw [if_neg (by omega), Nat.sub_add_comm h]

/-- One bit in the lower part. -/
theorem bit_low (x : BitVec n) (y : BitVec w) (h : start < w) :
    (x ++ y).getLsbD start = y.getLsbD start := by
  rw [BitVec.getLsbD_append, if_pos h]

/-- One bit in the upper part. -/
theorem bit_high (x : BitVec n) (y : BitVec w) (h : w ≤ start) :
    (x ++ y).getLsbD start = x.getLsbD (start - w) := by
  rw [BitVec.getLsbD_append, if_neg (by omega)]

/-- A field cut out with a shift and a mask. -/
theorem masked_eq_extractLsb' (x mask : BitVec w) (h : mask.setWidth len = BitVec.allOnes len) :
    (x >>> start &&& mask).setWidth len = x.extractLsb' start len := by
  rw [BitVec.setWidth_and, h, BitVec.and_allOnes, BitVec.setWidth_ushiftRight_eq_extractLsb]

end LispDos.Foundation
