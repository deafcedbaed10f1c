-- Fields of a machine word. A field is read by a shift, and written by a mask that clears it and
-- an or that puts the new bits in. Fields that do not overlap leave each other alone.
import Mathlib.Data.BitVec

namespace Lib

namespace BitField

variable {w n m lo lo' : Nat}

/-- The bits of the field of width `n` that starts at bit `lo`. -/
def mask (w lo n : Nat) : BitVec w := (BitVec.allOnes n).setWidth w <<< lo

def get (lo n : Nat) (x : BitVec w) : BitVec n := (x >>> lo).setWidth n

def set (lo : Nat) (v : BitVec n) (x : BitVec w) : BitVec w :=
  (x &&& ~~~ mask w lo n) ||| (v.setWidth w <<< lo)

theorem getLsbD_mask (i : Nat) :
    (mask w lo n).getLsbD i = decide (i < w ∧ lo ≤ i ∧ i < lo + n) := by
  simp only [mask, BitVec.getLsbD_shiftLeft, BitVec.getLsbD_setWidth, BitVec.getLsbD_allOnes]
  rw [Bool.eq_iff_iff]
  simp only [Bool.and_eq_true, Bool.not_eq_true', decide_eq_true_eq, decide_eq_false_iff_not]
  omega

theorem getLsbD_set (v : BitVec n) (x : BitVec w) {i : Nat} (hi : i < w) :
    (set lo v x).getLsbD i =
      if lo ≤ i ∧ i < lo + n then v.getLsbD (i - lo) else x.getLsbD i := by
  simp only [set, BitVec.getLsbD_or, BitVec.getLsbD_and, BitVec.getLsbD_not, getLsbD_mask,
    BitVec.getLsbD_shiftLeft, BitVec.getLsbD_setWidth, hi]
  by_cases hlo : lo ≤ i
  · by_cases hhi : i < lo + n
    · simp [hlo, hhi, Nat.not_lt.mpr hlo, show i - lo < w by omega]
    · have hout : v.getLsbD (i - lo) = false := BitVec.getLsbD_of_ge v _ (by omega)
      simp [hlo, hhi, hout]
  · simp [hlo, Nat.lt_of_not_le hlo]

theorem getLsbD_get (x : BitVec w) (i : Nat) :
    (get lo n x).getLsbD i = (decide (i < n) && x.getLsbD (lo + i)) := by
  simp [get]

/-- What was written is read back. -/
theorem get_set (v : BitVec n) (x : BitVec w) (h : lo + n ≤ w) : get lo n (set lo v x) = v := by
  ext i hi
  rw [← BitVec.getLsbD_eq_getElem, ← BitVec.getLsbD_eq_getElem, getLsbD_get,
    getLsbD_set v x (by omega), if_pos (by omega), Nat.add_sub_cancel_left]
  simp [hi]

/-- A field that does not overlap stays. -/
theorem get_set_of_apart (v : BitVec m) (x : BitVec w) (hw : lo + n ≤ w)
    (h : lo + n ≤ lo' ∨ lo' + m ≤ lo) : get lo n (set lo' v x) = get lo n x := by
  ext i hi
  rw [← BitVec.getLsbD_eq_getElem, ← BitVec.getLsbD_eq_getElem, getLsbD_get, getLsbD_get,
    getLsbD_set v x (by omega), if_neg (by omega)]

/-- Bits that fill the field need no mask. -/
theorem shiftLeft_and_mask (v : BitVec n) (lo : Nat) :
    (v.setWidth w <<< lo) &&& mask w lo n = v.setWidth w <<< lo := by
  ext i hi
  rw [← BitVec.getLsbD_eq_getElem, ← BitVec.getLsbD_eq_getElem, BitVec.getLsbD_and, getLsbD_mask,
    BitVec.getLsbD_shiftLeft, BitVec.getLsbD_setWidth]
  by_cases hlo : lo ≤ i
  · by_cases hhi : i < lo + n
    · simp [hi, hlo, hhi]
    · have hout : v.getLsbD (i - lo) = false := BitVec.getLsbD_of_ge v _ (by omega)
      simp [hout]
  · simp [Nat.lt_of_not_le hlo]

/-- A mask in front of the shift makes no difference. -/
theorem get_eq_of_mask (x : BitVec w) : ((x &&& mask w lo n) >>> lo).setWidth n = get lo n x := by
  ext i hi
  rw [← BitVec.getLsbD_eq_getElem, ← BitVec.getLsbD_eq_getElem, getLsbD_get]
  by_cases hw : lo + i < w
  · simp [getLsbD_mask, hi, hw]
  · simp [BitVec.getLsbD_of_ge x (lo + i) (by omega)]

/-- The lowest field needs no shift. -/
theorem and_mask_zero (x : BitVec w) : x &&& mask w 0 n = (get 0 n x).setWidth w := by
  ext i hi
  rw [← BitVec.getLsbD_eq_getElem, ← BitVec.getLsbD_eq_getElem, BitVec.getLsbD_and, getLsbD_mask,
    BitVec.getLsbD_setWidth, getLsbD_get, Nat.zero_add]
  by_cases hn : i < n <;> simp [hi, hn]

/-- A condition on one bit. -/
theorem and_one_ne_zero (x : BitVec w) (lo : Nat) (hw : 1 < w) :
    (((x >>> lo) &&& 1#w) != 0#w) = (get lo 1 x == 1#1) := by
  have hbit : get lo 1 x = BitVec.ofBool (x.getLsbD lo) := by
    ext i hi
    rw [← BitVec.getLsbD_eq_getElem, getLsbD_get]
    obtain rfl : i = 0 := by omega
    simp
  rw [BitVec.and_one_eq_setWidth_ofBool_getLsbD, BitVec.getLsbD_ushiftRight, Nat.add_zero, hbit]
  cases x.getLsbD lo with
  | false => simp
  | true =>
    have hone : BitVec.setWidth w 1#1 ≠ 0#w := fun hc => by
      have := congrArg BitVec.toNat hc
      simp at this
      omega
    simpa using hone

end BitField

end Lib
