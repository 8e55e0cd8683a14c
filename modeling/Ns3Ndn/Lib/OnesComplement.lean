import Mathlib

/-!
# Ones' complement sums

Sums of numbers up to `M` with the carry added back. They are the sums of natural numbers, read modulo `M` from one to `M`, where
only zero is zero.

* **`foldl_add`**: a ones' complement sum is a sum;
* **`swap_rep`**: a sum of swapped numbers is the swapped sum.
-/

namespace OnesLib

/-- The sum with its carry. -/
def add (M x y : ℕ) : ℕ := if x + y ≤ M then x + y else x + y - M

/-- What a sum of natural numbers is, up to `M`. -/
def rep (M s : ℕ) : ℕ := if s = 0 then 0 else (s - 1) % M + 1

section Sums

variable {M s t k : ℕ}

theorem rep_le (hM : 0 < M) (s : ℕ) : rep M s ≤ M := by
  have hlt := Nat.mod_lt (s - 1) hM
  rw [rep]
  split_ifs <;> omega

theorem rep_eq_self (h : s ≤ M) : rep M s = s := by
  rw [rep]
  split_ifs with hs
  · exact hs.symm
  · rw [Nat.mod_eq_of_lt (by omega)]
    omega

@[simp] theorem rep_zero (M : ℕ) : rep M 0 = 0 := rfl

theorem rep_add_mul (hs : s ≠ 0) (k : ℕ) : rep M (s + k * M) = rep M s := by
  have hshift : s + k * M - 1 = s - 1 + k * M := by omega
  rw [rep, rep, if_neg hs, if_neg (by omega), hshift, Nat.add_mul_mod_self_right]

theorem exists_eq_rep_add (M s : ℕ) : ∃ k, s = rep M s + k * M := by
  rcases Nat.eq_zero_or_pos s with rfl | hpos
  · exact ⟨0, by rw [rep_zero, Nat.zero_mul]⟩
  · have hdiv := Nat.mod_add_div' (s - 1) M
    refine ⟨(s - 1) / M, ?_⟩
    rw [rep, if_neg (by omega)]
    omega

theorem rep_eq_zero : rep M s = 0 ↔ s = 0 := by
  constructor
  · intro h
    by_contra hs
    rw [rep, if_neg hs] at h
    exact Nat.succ_ne_zero _ h
  · rintro rfl
    rfl

/-- A number in place of its sum. -/
theorem rep_rep_add (M s t : ℕ) : rep M (rep M s + t) = rep M (s + t) := by
  rcases eq_or_ne s 0 with rfl | hs
  · rw [rep_zero]
  · obtain ⟨k, hk⟩ := exists_eq_rep_add M s
    have hne : rep M s + t ≠ 0 := fun h => hs (rep_eq_zero.mp (Nat.eq_zero_of_add_eq_zero_right h))
    have hsum : s + t = rep M s + t + k * M := by omega
    rw [hsum, rep_add_mul hne]

/-- **The carry folded back.** -/
theorem rep_carry (M s : ℕ) : rep M (s % (M + 1) + s / (M + 1)) = rep M s := by
  have hdiv := Nat.mod_add_div' s (M + 1)
  generalize s % (M + 1) = r, s / (M + 1) = q at *
  subst hdiv
  have hsum : r + q * (M + 1) = r + q + q * M := by ring
  rw [hsum]
  rcases eq_or_ne (r + q) 0 with hzero | hne
  · obtain ⟨-, rfl⟩ := Nat.add_eq_zero_iff.mp hzero
    rw [Nat.zero_mul, Nat.add_zero]
  · exact (rep_add_mul hne q).symm

theorem add_rep (hM : 0 < M) (ht : t ≤ M) (s : ℕ) : add M (rep M s) t = rep M (s + t) := by
  rw [← rep_rep_add]
  have hle := rep_le hM s
  generalize rep M s = r at hle
  rw [add]
  split_ifs with h
  · exact (rep_eq_self h).symm
  · have hturn : r + t = r + t - M + 1 * M := by omega
    rw [hturn, rep_add_mul (by omega), rep_eq_self (by omega)]
    omega

/-- **A ones' complement sum** is the number of the sum. -/
theorem foldl_add {l : List ℕ} (hM : 0 < M) (hl : ∀ x ∈ l, x ≤ M) (s : ℕ) : l.foldl (add M) (rep M s) = rep M (s + l.sum) := by
  induction l generalizing s with
  | nil => rfl
  | cons x l ih =>
    rw [List.foldl_cons, add_rep hM (hl x List.mem_cons_self), ih (fun y hy => hl y (List.mem_cons_of_mem x hy)), List.sum_cons,
      Nat.add_assoc]

theorem rep_add_complement (hM : 0 < M) (s : ℕ) : rep M (s + (M - rep M s)) = M := by
  have hle := rep_le hM s
  rw [← rep_rep_add, Nat.add_sub_cancel' hle, rep_eq_self le_rfl]

end Sums

/-! ## Swapped numbers -/

/-- The two digits of a number exchanged. -/
def swap (B x : ℕ) : ℕ := x % B * B + x / B

section Swap

variable {B s : ℕ}

theorem swap_le (hB : 0 < B) (hs : s ≤ B * B - 1) : swap B s ≤ B * B - 1 := by
  have hsq := Nat.mul_pos hB hB
  have hlow := Nat.mod_lt s hB
  have hhigh : s / B < B := Nat.div_lt_of_lt_mul (by omega)
  have hmul : s % B * B ≤ (B - 1) * B := Nat.mul_le_mul_right B (by omega)
  have hle := Nat.le_mul_self B
  rw [Nat.sub_mul, Nat.one_mul] at hmul
  rw [swap]
  omega

theorem mul_eq_swap_add (hB : 0 < B) (s : ℕ) : B * s = swap B s + s / B * (B * B - 1) := by
  have hdiv := Nat.mod_add_div' s B
  have hsq := Nat.mul_pos hB hB
  have hmul : B * s = s % B * B + s / B * (B * B) := by
    conv_lhs => rw [← hdiv]
    ring
  have hone : s / B * (B * B) = s / B + s / B * (B * B - 1) := by
    conv_lhs => rw [← Nat.sub_add_cancel hsq]
    ring
  rw [hmul, hone, swap, Nat.add_assoc]

/-- **The swapped sum** is the sum of the swapped numbers. -/
theorem swap_rep (hB : 1 < B) (s : ℕ) : swap B (rep (B * B - 1) s) = rep (B * B - 1) (B * s) := by
  have hsq : 1 < B * B := Nat.one_lt_mul_iff.mpr ⟨by omega, by omega, .inl hB⟩
  rcases eq_or_ne s 0 with rfl | hs
  · rw [Nat.mul_zero, rep_zero, swap, Nat.zero_mod, Nat.zero_mul, Nat.zero_div]
  · obtain ⟨k, hk⟩ := exists_eq_rep_add (B * B - 1) s
    have hle : rep (B * B - 1) s ≤ B * B - 1 := rep_le (by omega) s
    have hne : rep (B * B - 1) s ≠ 0 := mt rep_eq_zero.mp hs
    generalize rep (B * B - 1) s = r at *
    have hsum : B * s = B * r + B * k * (B * B - 1) := by
      rw [hk]
      ring
    have hswap := mul_eq_swap_add (by omega : 0 < B) r
    have hr : B * r ≠ 0 := Nat.mul_ne_zero (by omega) hne
    have hswap' : swap B r ≠ 0 := by
      intro hzero
      rw [swap, Nat.add_eq_zero_iff] at hzero
      rw [hswap, swap, hzero.1, hzero.2, Nat.zero_mul] at hr
      exact hr rfl
    rw [hsum, rep_add_mul hr, hswap, rep_add_mul hswap', rep_eq_self (swap_le (by omega) hle)]

end Swap

end OnesLib
