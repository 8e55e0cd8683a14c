import Mathlib

/-!
# Division by a reciprocal

A number `inv` with `inv * v` between `P` and `P + e` is a reciprocal of `v`, scaled by `P` and rounded up. A product with it is divided by `P`
for a quotient, or by less for a quotient with a fraction.
-/

namespace ReciprocalLib

structure Reciprocal (P v e inv : ℕ) : Prop where
  lower : P ≤ inv * v
  upper : inv * v ≤ P + e

variable {P S v e inv : ℕ}

/-- **The quotient is exact** as long as the error does not add up to `P`. -/
theorem Reciprocal.mul_div (h : Reciprocal P v e inv) (hv : 0 < v) {n : ℕ} (herr : n * e < P) : n * inv / P = n / v := by
  have hP : 0 < P := (Nat.zero_le _).trans_lt herr
  have hprod : n * (inv * v) = n * inv * v := (Nat.mul_assoc n inv v).symm
  have hdm := Nat.div_add_mod n v
  have hmod := Nat.mod_lt n hv
  apply Nat.div_eq_of_lt_le
  · -- `n / v * P ≤ n * inv`, after a multiplication by `v`
    apply Nat.le_of_mul_le_mul_right _ hv
    calc n / v * P * v = v * (n / v) * P := by ring
      _ ≤ n * P := Nat.mul_le_mul_right P (Nat.mul_div_le n v)
      _ ≤ n * (inv * v) := Nat.mul_le_mul_left n h.lower
      _ = n * inv * v := hprod
  · apply Nat.lt_of_mul_lt_mul_right (a := v)
    calc n * inv * v = n * (inv * v) := hprod.symm
      _ ≤ n * (P + e) := Nat.mul_le_mul_left n h.upper
      _ = n * P + n * e := Nat.mul_add n P e
      _ < n * P + P := by omega
      _ = (n + 1) * P := (Nat.succ_mul n P).symm
      _ ≤ v * (n / v + 1) * P := Nat.mul_le_mul_right P (by rw [Nat.mul_add, Nat.mul_one]; omega)
      _ = (n / v + 1) * P * v := by ring

variable (h : Reciprocal (S * S) v e inv)

include h

theorem Reciprocal.multiple_ge (hS : 0 < S) (n : ℕ) : n * S ≤ n * v * inv / S := by
  rw [Nat.le_div_iff_mul_le hS]
  calc n * S * S = n * (S * S) := Nat.mul_assoc n S S
    _ ≤ n * (inv * v) := Nat.mul_le_mul_left n h.lower
    _ = n * v * inv := by ring

theorem Reciprocal.multiple_le (hS : 0 < S) (n : ℕ) : n * v * inv / S ≤ n * S + n * e / S := by
  have hle : n * v * inv ≤ S * (n * S) + n * e := by
    calc n * v * inv = n * (inv * v) := by ring
      _ ≤ n * (S * S + e) := Nat.mul_le_mul_left n h.upper
      _ = S * (n * S) + n * e := by ring
  calc n * v * inv / S ≤ (S * (n * S) + n * e) / S := Nat.div_le_div_right hle
    _ = n * S + n * e / S := Nat.mul_add_div hS _ _

theorem Reciprocal.fraction_le (hS : 0 < S) (n : ℕ) : n * inv / S * v ≤ n * S + n * e / S := by
  calc n * inv / S * v = v * (n * inv / S) := Nat.mul_comm _ _
    _ ≤ v * (n * inv) / S := Nat.mul_div_le_mul_div_assoc _ _ _
    _ = n * v * inv / S := by rw [Nat.mul_left_comm, ← Nat.mul_assoc]
    _ ≤ n * S + n * e / S := h.multiple_le hS n

theorem Reciprocal.lt_fraction (hS : 0 < S) (hv : 0 < v) (n : ℕ) : n * S < n * inv / S * v + v := by
  have hlt : n * inv < (n * inv / S + 1) * S := Nat.lt_mul_of_div_lt (Nat.lt_succ_self _) hS
  apply Nat.lt_of_mul_lt_mul_right (a := S)
  calc n * S * S = n * (S * S) := Nat.mul_assoc n S S
    _ ≤ n * (inv * v) := Nat.mul_le_mul_left n h.lower
    _ = n * inv * v := (Nat.mul_assoc n inv v).symm
    _ < (n * inv / S + 1) * S * v := Nat.mul_lt_mul_of_pos_right hlt hv
    _ = (n * inv / S * v + v) * S := by ring

end ReciprocalLib
