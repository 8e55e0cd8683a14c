import Mathlib

/-!
# Sign and magnitude

Signed arithmetic on machine words that takes the magnitudes of its operands and gives the result its sign.

* `magnitude`, `toNat_magnitude`: the magnitude of the least number is a word as well, without a sign.
-/

namespace SignMagnitudeLib

variable {w : ℕ}

/-- `x < 0 ? -x : x` -/
def magnitude (x : BitVec w) : BitVec w := if x.slt 0 then -x else x

def withSign (negative : Bool) (r : BitVec w) : BitVec w := if negative then -r else r

theorem slt_zero_iff (x : BitVec w) : x.slt 0 = true ↔ x.toInt < 0 := by
  rw [BitVec.slt_iff_toInt_lt]
  simp

theorem toNat_magnitude (x : BitVec w) : (magnitude x).toNat = x.toInt.natAbs := by
  have hlt := x.isLt
  unfold magnitude
  split_ifs with hneg
  · rw [slt_zero_iff, BitVec.toInt_eq_toNat_cond] at hneg
    rw [BitVec.toNat_neg, BitVec.toInt_eq_toNat_cond]
    split_ifs at hneg ⊢ with hhalf
    · omega
    · rw [Nat.mod_eq_of_lt (by omega)]
      omega
  · rw [slt_zero_iff, BitVec.toInt_eq_toNat_cond] at hneg
    rw [BitVec.toInt_eq_toNat_cond]
    split_ifs at hneg ⊢ with hhalf
    · rfl
    · omega

/-- A magnitude is no more than half of the words, and less unless it is that of the least number. -/
theorem two_mul_magnitude_le (x : BitVec w) : 2 * (magnitude x).toNat ≤ 2 ^ w := by
  have hle := BitVec.two_mul_toInt_le (x := x)
  have hlt := BitVec.le_two_mul_toInt (x := x)
  rw [toNat_magnitude]
  have hcast : ((2 ^ w : ℕ) : ℤ) = 2 ^ w := by push_cast; rfl
  omega

/-- Only the least number has the magnitude of half of the words. -/
theorem natAbs_toInt_lt {x : BitVec w} (h : x ≠ BitVec.intMin w) : x.toInt.natAbs < 2 ^ (w - 1) := by
  have hle := BitVec.toInt_intMin_le x
  have hne : x.toInt ≠ (BitVec.intMin w).toInt := fun heq => h (BitVec.eq_of_toInt_eq heq)
  cases w with
  | zero => exact absurd (BitVec.of_length_zero.trans BitVec.of_length_zero.symm) h
  | succ w =>
    have hlt := BitVec.toInt_lt (x := x)
    rw [BitVec.toInt_intMin_of_pos (v := w + 1) (Nat.succ_pos w)] at hle hne
    simp only [Nat.add_sub_cancel] at hle hne hlt
    change x.toInt.natAbs < 2 ^ w
    have hcast : ((2 ^ w : ℕ) : ℤ) = 2 ^ w := by push_cast; rfl
    omega

theorem toInt_withSign {negative : Bool} {r : BitVec w}
    (h : 2 * r.toNat < 2 ^ w ∨ negative = true ∧ 2 * r.toNat = 2 ^ w) :
    (withSign negative r).toInt = if negative then -(r.toNat : ℤ) else r.toNat := by
  have hlt := r.isLt
  unfold withSign
  cases negative with
  | false =>
    have hhalf : 2 * r.toNat < 2 ^ w := by simpa using h
    simp [BitVec.toInt_eq_toNat_cond, hhalf]
  | true =>
    simp only [if_true]
    rw [BitVec.toInt_eq_toNat_cond, BitVec.toNat_neg]
    rcases Nat.eq_zero_or_pos r.toNat with hzero | hpos
    · simp [hzero]
    · rw [Nat.mod_eq_of_lt (by omega)]
      split_ifs with hhalf
      · omega
      · push_cast [hlt.le]
        ring

end SignMagnitudeLib
