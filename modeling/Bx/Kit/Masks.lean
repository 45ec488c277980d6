import Mathlib.Data.BitVec

/-!
# Masks

A word is changed by clearing some bits and setting others. Words that agree in a mask
agree there after the same change, and bits that are neither cleared nor set stay.
-/

namespace Bx.Kit

variable {w : Nat} {mask part clear set a b : BitVec w}

theorem and_part (h : a &&& mask = b &&& mask) (hpart : mask &&& part = part) : a &&& part = b &&& part := by
  rw [← hpart, ← BitVec.and_assoc, ← BitVec.and_assoc, h]

theorem mask_twice (a mask : BitVec w) : a &&& mask &&& mask = a &&& mask := by
  rw [BitVec.and_assoc, BitVec.and_self]

theorem mask_right_comm (a b c : BitVec w) : a &&& b &&& c = a &&& c &&& b := by
  rw [BitVec.and_assoc, BitVec.and_comm b c, BitVec.and_assoc]

theorem or_and_eq_zero (ha : a &&& part = 0#w) (hb : b &&& part = 0#w) : (a ||| b) &&& part = 0#w := by
  rw [BitVec.and_or_distrib_right, ha, hb, BitVec.or_self]

theorem and_and_eq_zero (ha : a &&& part = 0#w) (b : BitVec w) : a &&& b &&& part = 0#w := by
  rw [mask_right_comm, ha, BitVec.zero_and]

theorem update_congr (h : a &&& mask = b &&& mask) (clear set : BitVec w) :
    (a &&& ~~~clear ||| set) &&& mask = (b &&& ~~~clear ||| set) &&& mask := by
  rw [BitVec.and_or_distrib_right, BitVec.and_or_distrib_right, mask_right_comm a, mask_right_comm b, h]

theorem update_keeps (hclear : clear &&& part = 0#w) (hset : set &&& part = 0#w) (a : BitVec w) :
    (a &&& ~~~clear ||| set) &&& part = a &&& part := by
  have houtside : ~~~clear &&& part = part := by
    ext i hi
    have hbit := congrArg (·.getLsbD i) hclear
    simp [hi, BitVec.getLsbD_eq_getElem] at *
    cases hpart : part[i] <;> simp_all
  rw [BitVec.and_or_distrib_right, hset, BitVec.or_zero, BitVec.and_assoc, houtside]

end Bx.Kit
