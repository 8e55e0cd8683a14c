import Mathlib.MeasureTheory.Measure.Lebesgue.Basic

/-!
# Choice with given probabilities

A random number is compared with the sums of weights, and the first sum that is not below it decides. Each item is chosen
on an interval that is as long as its weight.

* `pick_isSome`: something is chosen up to the sum of all weights.
-/

namespace RouletteLib

open Finset

variable {α : Type} {K : Type} [Field K] [LinearOrder K] [IsStrictOrderedRing K]

def pick (w : ℕ → K) (r : K) : (rank : ℕ) → (offset : K) → List α → Option α
  | _, _, [] => none
  | rank, offset, a :: l => if r ≤ offset + w rank then some a else pick w r (rank + 1) (offset + w rank) l

variable {w : ℕ → K} {r : K} {l : List α}

omit [IsStrictOrderedRing K] in
theorem pick_cons {rank : ℕ} {offset : K} {a : α} : pick w r rank offset (a :: l) =
    if r ≤ offset + w rank then some a else pick w r (rank + 1) (offset + w rank) l := rfl

omit [IsStrictOrderedRing K] in
theorem mem_of_pick {rank : ℕ} {offset : K} {a : α} (h : pick w r rank offset l = some a) : a ∈ l := by
  induction l generalizing rank offset with
  | nil => cases h
  | cons b l ih =>
    rw [pick_cons] at h
    split at h
    · obtain rfl := Option.some.inj h
      exact List.mem_cons_self
    · exact List.mem_cons_of_mem b (ih h)

theorem pick_isSome {rank : ℕ} {offset : K} (hl : l ≠ [])
    (hr : r ≤ offset + ∑ j ∈ range l.length, w (rank + j)) : (pick w r rank offset l).isSome := by
  induction l generalizing rank offset with
  | nil => exact absurd rfl hl
  | cons a l ih =>
    rw [pick_cons]
    split
    · rfl
    · next hfirst =>
      rw [List.length_cons, sum_range_succ'] at hr
      have hrest : r ≤ offset + w rank + ∑ j ∈ range l.length, w (rank + 1 + j) := by
        simp only [Nat.add_zero] at hr
        simp only [Nat.add_right_comm rank 1, Nat.add_assoc rank] at hr ⊢
        linarith
      refine ih ?_ hrest
      rintro rfl
      simp at hrest
      exact hfirst hrest

/-- The item at `i` is chosen behind the sum of the weights before it and up to the next sum. -/
theorem pick_eq_some_iff (hl : l.Nodup) (hw : ∀ i, 0 ≤ w i) {rank : ℕ} {offset : K} {i : ℕ} {a : α}
    (hi : l[i]? = some a) :
    pick w r rank offset l = some a ↔
      (i = 0 ∨ offset + ∑ j ∈ range i, w (rank + j) < r) ∧ r ≤ offset + ∑ j ∈ range (i + 1), w (rank + j) := by
  induction l generalizing rank offset i with
  | nil => simp at hi
  | cons b l ih =>
    obtain ⟨hb, hl⟩ := List.nodup_cons.1 hl
    rw [pick_cons]
    cases i with
    | zero =>
      obtain rfl : b = a := by simpa using hi
      simp only [true_or, true_and, zero_add, sum_range_one, Nat.add_zero]
      split
      · next h => simp [h]
      · next h =>
        simp only [h, iff_false]
        exact fun hpick => hb (mem_of_pick hpick)
    | succ i =>
      have hi' : l[i]? = some a := by simpa using hi
      have hsum (n : ℕ) : offset + ∑ j ∈ range (n + 1), w (rank + j) =
          offset + w rank + ∑ j ∈ range n, w (rank + 1 + j) := by
        rw [sum_range_succ', Nat.add_zero]
        simp only [Nat.add_right_comm rank 1, Nat.add_assoc rank]
        ring
      rw [hsum i, hsum (i + 1)]
      have hnonneg : 0 ≤ ∑ j ∈ range i, w (rank + 1 + j) := sum_nonneg fun j _ => hw _
      split
      · next h =>
        have hne : b ≠ a := by
          rintro rfl
          exact hb (List.mem_of_getElem? hi')
        simp only [Option.some.injEq, hne, false_iff, Nat.add_eq_zero_iff, one_ne_zero, and_false, false_or, not_and]
        intro hlt
        linarith
      · next h =>
        rw [ih hl hi']
        simp only [Nat.add_eq_zero_iff, one_ne_zero, and_false, false_or]
        refine and_congr_left fun _ => ?_
        constructor
        · rintro (rfl | hlt)
          · simpa using h
          · exact hlt
        · exact Or.inr

theorem volume_pick (hl : l.Nodup) {w : ℕ → ℝ} (hw : ∀ i, 0 ≤ w i) {rank i : ℕ} {a : α} (hi : l[i]? = some a)
    (hsum : ∑ j ∈ range (i + 1), w (rank + j) ≤ 1) :
    MeasureTheory.volume {r : ℝ | 0 ≤ r ∧ r < 1 ∧ pick w r rank 0 l = some a} = ENNReal.ofReal (w (rank + i)) := by
  set c := ∑ j ∈ range i, w (rank + j) with hc
  have hnext : ∑ j ∈ range (i + 1), w (rank + j) = c + w (rank + i) := sum_range_succ _ i
  have hnonneg : 0 ≤ c := sum_nonneg fun j _ => hw _
  have hlength : c + w (rank + i) - c = w (rank + i) := by ring
  rw [hnext] at hsum
  apply le_antisymm
  · calc
      MeasureTheory.volume {r : ℝ | 0 ≤ r ∧ r < 1 ∧ pick w r rank 0 l = some a}
        ≤ MeasureTheory.volume (Set.Icc c (c + w (rank + i))) := by
          apply MeasureTheory.measure_mono
          rintro r ⟨hr0, -, hpick⟩
          rw [pick_eq_some_iff hl hw hi, hnext, zero_add, zero_add] at hpick
          refine ⟨?_, hpick.2⟩
          rcases hpick.1 with rfl | hlt
          · simpa [hc] using hr0
          · exact hlt.le
      _ = ENNReal.ofReal (w (rank + i)) := by rw [Real.volume_Icc, hlength]
  · calc
      ENNReal.ofReal (w (rank + i)) = MeasureTheory.volume (Set.Ioo c (c + w (rank + i))) := by
          rw [Real.volume_Ioo, hlength]
      _ ≤ MeasureTheory.volume {r : ℝ | 0 ≤ r ∧ r < 1 ∧ pick w r rank 0 l = some a} := by
          apply MeasureTheory.measure_mono
          rintro r ⟨hlow, hhigh⟩
          refine ⟨by linarith, by linarith, ?_⟩
          rw [pick_eq_some_iff hl hw hi, hnext, zero_add, zero_add]
          exact ⟨Or.inr hlow, hhigh.le⟩

end RouletteLib
