import Ns3Ndn.Lib.BitField

/-!
# Bit strings

A number as a string of bits, the lowest one first. A string is extended above its last bit.

* `field_append`, `field_field`: fields of neighbouring bits, and the field of a field;
* `field_extend_below`, `field_extend_above`, `field_extend`: the fields of a longer string.
-/

namespace BitFieldLib

variable {a b n m T V v : ℕ}

theorem field_append (a b c V : ℕ) : field a (b + c) V = field (a + b) c V * 2 ^ b + field a b V := by
  rw [field_eq, field_eq, field_eq, pow_add 2 b c, pow_add 2 a b, ← Nat.div_div_eq_div_mul, Nat.mod_mul]
  ring

theorem field_field (h : b + m ≤ n) : field b m (field a n V) = field (a + b) m V := by
  obtain ⟨d, rfl⟩ := Nat.exists_eq_add_of_le h
  rw [field_eq, field_eq, field_eq, pow_add 2 a b, ← Nat.div_div_eq_div_mul, Nat.add_assoc, pow_add 2 b, Nat.mod_mul_right_div_self, pow_add,
    Nat.mod_mul_right_mod]

theorem field_zero_of_lt (h : V < 2 ^ n) : field 0 n V = V := by
  rw [field_eq, pow_zero, Nat.div_one, Nat.mod_eq_of_lt h]

theorem field_of_lt (hV : V < 2 ^ T) (h : T ≤ a) : field a n V = 0 := by
  rw [field_eq, Nat.div_eq_of_lt (hV.trans_le (Nat.pow_le_pow_right (by decide) h)), Nat.zero_mod]

theorem field_lt_of_lt (hV : V < 2 ^ (a + m)) : field a n V < 2 ^ m := by
  rw [field_eq]
  have hdiv : V / 2 ^ a < 2 ^ m := Nat.div_lt_of_lt_mul (by rwa [← pow_add])
  exact (Nat.mod_le _ _).trans_lt hdiv

/-! ## Longer strings -/

theorem field_extend_below (h : a + n ≤ T) : field a n (V + v * 2 ^ T) = field a n V := by
  obtain ⟨d, rfl⟩ := Nat.exists_eq_add_of_le h
  have hpow : v * 2 ^ (a + n + d) = 2 ^ a * (2 ^ n * (v * 2 ^ d)) := by ring
  rw [field_eq, field_eq, hpow, Nat.add_mul_div_left _ _ (Nat.two_pow_pos a), Nat.add_mul_mod_self_left]

theorem field_extend_above (hV : V < 2 ^ T) : field (T + a) n (V + v * 2 ^ T) = field a n v := by
  rw [field_eq, field_eq, pow_add, ← Nat.div_div_eq_div_mul, Nat.add_mul_div_right _ _ (Nat.two_pow_pos T), Nat.div_eq_of_lt hV, Nat.zero_add]

theorem field_extend (hV : V < 2 ^ (a + n)) : field a (n + m) (V + v * 2 ^ (a + n)) = field 0 m v * 2 ^ n + field a n V := by
  have hnew : field (a + n + 0) m (V + v * 2 ^ (a + n)) = field 0 m v := field_extend_above hV
  rw [field_append, field_extend_below le_rfl, ← hnew, Nat.add_zero]

theorem extend_lt (hV : V < 2 ^ T) (hv : v < 2 ^ n) : V + v * 2 ^ T < 2 ^ (T + n) := by
  calc V + v * 2 ^ T < 2 ^ T + v * 2 ^ T := Nat.add_lt_add_right hV _
    _ = (v + 1) * 2 ^ T := by ring
    _ ≤ 2 ^ n * 2 ^ T := Nat.mul_le_mul_right _ hv
    _ = 2 ^ (T + n) := by rw [pow_add, Nat.mul_comm]

end BitFieldLib
