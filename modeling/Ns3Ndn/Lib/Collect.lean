import Mathlib

/-!
# Collecting fragments

A message of a number of fragments is complete each time that all of them have arrived since it was complete before.

* `completions`: which arrivals complete it;
* `count_completions_le`, `one_le_count_completions`: how often it is complete.
-/

namespace CollectLib

/-- Which arrivals complete a message of `fragCount` fragments: those after which all fragments have
arrived since the message was complete before. -/
def completions (fragCount : ℕ) : (got : Finset ℕ) → List ℕ → List Bool
  | _, [] => []
  | got, fragIndex :: arrivals =>
    if (insert fragIndex got).card = fragCount then true :: completions fragCount ∅ arrivals
    else false :: completions fragCount (insert fragIndex got) arrivals

variable {fragCount : ℕ} {got : Finset ℕ} {arrivals : List ℕ}

/-- There are as many as there can be when they are all there. -/
theorem card_eq_iff (hgot : ∀ i ∈ got, i < fragCount) : got.card = fragCount ↔ ∀ i < fragCount, i ∈ got := by
  have hsub : got ⊆ Finset.range fragCount := fun i hi => Finset.mem_range.mpr (hgot i hi)
  constructor
  · intro hcard i hi
    rw [Finset.eq_of_subset_of_card_le hsub (by rw [Finset.card_range, hcard])]
    exact Finset.mem_range.mpr hi
  · intro hall
    have heq : got = Finset.range fragCount := hsub.antisymm fun i hi => hall i (Finset.mem_range.mp hi)
    rw [heq, Finset.card_range]

theorem count_completions_le {j : ℕ} (hj : j < fragCount) (hgot : ∀ i ∈ got, i < fragCount)
    (hlt : ∀ i ∈ arrivals, i < fragCount) :
    (completions fragCount got arrivals).count true ≤
      arrivals.count j + if j ∈ got then 1 else 0 := by
  induction arrivals generalizing got with
  | nil => exact Nat.zero_le _
  | cons i arrivals ih =>
    obtain ⟨hi, hlt⟩ := List.forall_mem_cons.mp hlt
    have hinsert : ∀ k ∈ insert i got, k < fragCount :=
      Finset.forall_mem_insert .. |>.mpr ⟨hi, hgot⟩
    rw [completions, List.count_cons]
    by_cases hfull : (insert i got).card = fragCount
    · have hmem : j = i ∨ j ∈ got := Finset.mem_insert.mp ((card_eq_iff hinsert).mp hfull j hj)
      have hrec : (completions fragCount ∅ arrivals).count true ≤ arrivals.count j := ih (by simp) hlt
      rw [if_pos hfull, List.count_cons_self]
      rcases hmem with rfl | hmem
      · simp only [BEq.rfl, if_true]
        omega
      · rw [if_pos hmem]
        omega
    · have hrec := ih hinsert hlt
      rw [if_neg hfull, List.count_cons_of_ne Bool.false_ne_true]
      simp only [Finset.mem_insert, beq_iff_eq] at hrec ⊢
      by_cases hij : j = i
      · rw [if_pos (.inl hij)] at hrec
        rw [if_pos hij.symm]
        omega
      · simp only [hij, Ne.symm hij, false_or, if_false] at hrec ⊢
        exact hrec

theorem one_le_count_completions (hgot : ∀ i ∈ got, i < fragCount) (hcard : got.card < fragCount)
    (hlt : ∀ i ∈ arrivals, i < fragCount) (hall : ∀ i < fragCount, i ∈ got ∨ i ∈ arrivals) :
    1 ≤ (completions fragCount got arrivals).count true := by
  induction arrivals generalizing got with
  | nil =>
    have hsub : Finset.range fragCount ⊆ got := fun i hi =>
      (hall i (Finset.mem_range.mp hi)).resolve_right List.not_mem_nil
    have := Finset.card_le_card hsub
    rw [Finset.card_range] at this
    omega
  | cons i arrivals ih =>
    obtain ⟨hi, hlt⟩ := List.forall_mem_cons.mp hlt
    have hinsert : ∀ k ∈ insert i got, k < fragCount :=
      Finset.forall_mem_insert .. |>.mpr ⟨hi, hgot⟩
    rw [completions]
    split_ifs with hfull
    · simp
    · have hle := Finset.card_insert_le i got
      have hrec := ih hinsert (by omega) hlt fun k hk => by
        rcases hall k hk with hk | hk
        · exact .inl (Finset.mem_insert_of_mem hk)
        · rcases List.mem_cons.mp hk with rfl | hk
          · exact .inl (Finset.mem_insert_self _ _)
          · exact .inr hk
      simpa using hrec

end CollectLib
