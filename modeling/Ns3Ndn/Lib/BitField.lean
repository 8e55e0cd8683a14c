import Mathlib

/-!
# Bit fields

A word with fields of bits that do not overlap. A field is set by a disjunction with its value at its place.

* `field_or`, `field_shiftLeft`: a field of a disjunction, and of a shifted value.
-/

namespace BitFieldLib

def field (shift width word : ℕ) : ℕ := word >>> shift &&& (2 ^ width - 1)

variable {shift width shift' width' a b v : ℕ}

theorem field_eq (shift width word : ℕ) : field shift width word = word / 2 ^ shift % 2 ^ width := by
  unfold field
  rw [Nat.and_two_pow_sub_one_eq_mod, Nat.shiftRight_eq_div_pow]

theorem field_lt (shift width word : ℕ) : field shift width word < 2 ^ width := by
  rw [field_eq]
  exact Nat.mod_lt _ (Nat.two_pow_pos width)

theorem field_or (shift width a b : ℕ) : field shift width (a ||| b) = field shift width a ||| field shift width b := by
  unfold field
  rw [Nat.shiftRight_or_distrib, Nat.and_or_distrib_right]

theorem field_shiftLeft (h : v < 2 ^ width) : field shift width (v <<< shift) = v := by
  unfold field
  rw [Nat.shiftLeft_shiftRight, Nat.and_two_pow_sub_one_eq_mod, Nat.mod_eq_of_lt h]

theorem shiftLeft_lt (hv : v < 2 ^ width') (h : shift' + width' ≤ shift) : v <<< shift' < 2 ^ shift := by
  rw [Nat.shiftLeft_eq]
  calc v * 2 ^ shift' < 2 ^ width' * 2 ^ shift' := Nat.mul_lt_mul_of_pos_right hv (Nat.two_pow_pos shift')
    _ = 2 ^ (shift' + width') := by rw [← pow_add, Nat.add_comm]
    _ ≤ 2 ^ shift := Nat.pow_le_pow_right (by decide) h

theorem field_above (hv : v < 2 ^ width') (h : shift' + width' ≤ shift) : field shift width (v <<< shift') = 0 := by
  rw [field_eq, Nat.div_eq_of_lt (shiftLeft_lt hv h), Nat.zero_mod]

theorem field_below (h : shift + width ≤ shift') : field shift width (v <<< shift') = 0 := by
  obtain ⟨d, rfl⟩ := Nat.exists_eq_add_of_le h
  have hpow : 2 ^ (shift + width + d) = 2 ^ shift * (2 ^ width * 2 ^ d) := by ring
  rw [field_eq, Nat.shiftLeft_eq, hpow, Nat.mul_left_comm, Nat.mul_div_cancel_left _ (Nat.two_pow_pos shift), Nat.mul_left_comm,
    Nat.mul_mod_right]

theorem or_eq_add (k : ℕ) (ha : a % 2 ^ k = 0) (hb : b < 2 ^ k) : a ||| b = a + b := by
  obtain ⟨c, rfl⟩ := Nat.dvd_of_mod_eq_zero ha
  rw [Nat.mul_comm, ← Nat.shiftLeft_eq, Nat.shiftLeft_add_eq_or_of_lt hb]

theorem and_shiftLeft_mask (n width shift : ℕ) : n &&& (2 ^ width - 1) <<< shift = n / 2 ^ shift % 2 ^ width * 2 ^ shift := by
  rw [← Nat.shiftLeft_eq, ← Nat.and_two_pow_sub_one_eq_mod, ← Nat.shiftRight_eq_div_pow, Nat.shiftLeft_and_distrib]
  apply Nat.eq_of_testBit_eq
  intro i
  simp only [Nat.testBit_and, Nat.testBit_shiftLeft, Nat.testBit_shiftRight]
  by_cases hi : shift ≤ i
  · simp [hi]
  · simp [hi]

theorem and_not_bits {w : ℕ} {p m : BitVec w} (hp : p &&& m = 0) : p &&& ~~~m = p := by
  ext i hi
  have hbit := congrArg (fun x : BitVec w => x[i]) hp
  simp only [BitVec.getElem_and, BitVec.ofNat_eq_ofNat, BitVec.getElem_zero] at hbit
  rw [BitVec.getElem_and, BitVec.getElem_not]
  revert hbit
  cases p[i] <;> cases m[i] <;> decide

theorem overlay_bits_iff {w : ℕ} {p b m k : BitVec w} (hp : p &&& m = 0) :
    (p &&& ~~~m) ||| ((b &&& k) &&& m) = b ↔ b &&& ~~~m = p ∧ b &&& m &&& ~~~k = 0 := by
  have hbit : ∀ i (hi : i < w), (p[i] && m[i]) = false := fun i hi => by
    have := congrArg (fun x : BitVec w => x[i]) hp
    simpa using this
  constructor
  · intro h
    have hb : ∀ i (hi : i < w), ((p[i] && !m[i]) || (b[i] && k[i] && m[i])) = b[i] := fun i hi => by
      have := congrArg (fun x : BitVec w => x[i]) h
      simpa using this
    constructor
    · ext i hi
      have h1 := hbit i hi
      have h2 := hb i hi
      rw [BitVec.getElem_and, BitVec.getElem_not]
      revert h1 h2
      cases p[i] <;> cases b[i] <;> cases m[i] <;> cases k[i] <;> decide
    · ext i hi
      have h1 := hbit i hi
      have h2 := hb i hi
      simp only [BitVec.getElem_and, BitVec.getElem_not, BitVec.ofNat_eq_ofNat, BitVec.getElem_zero]
      revert h1 h2
      cases p[i] <;> cases b[i] <;> cases m[i] <;> cases k[i] <;> decide
  · rintro ⟨h, h'⟩
    have hb : ∀ i (hi : i < w), (b[i] && !m[i]) = p[i] := fun i hi => by
      have := congrArg (fun x : BitVec w => x[i]) h
      simpa using this
    have hb' : ∀ i (hi : i < w), (b[i] && m[i] && !k[i]) = false := fun i hi => by
      have := congrArg (fun x : BitVec w => x[i]) h'
      simpa using this
    ext i hi
    have h1 := hb i hi
    have h2 := hb' i hi
    simp only [BitVec.getElem_and, BitVec.getElem_not, BitVec.getElem_or]
    revert h1 h2
    cases p[i] <;> cases b[i] <;> cases m[i] <;> cases k[i] <;> decide

end BitFieldLib
