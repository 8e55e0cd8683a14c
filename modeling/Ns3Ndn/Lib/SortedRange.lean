import Mathlib

/-!
# Ranges of a sorted list

An iterator into a list is the list of the elements from it on. `lowerBound p l` is the first element that does
not satisfy `p`, where the elements with `p` come first, and `between` are the elements from one iterator to
another.

* `mem_lowerBound`, **`mem_between_lowerBound`**: the elements between two lower bounds;
* `find?_sorted`: what is found in a sorted list is the least of its kind.
-/

namespace RangeLib

variable {α : Type} {p q : α → Bool} {l : List α}

/-- The first element without `p`. -/
def lowerBound (p : α → Bool) (l : List α) : List α := l.dropWhile p

def between (first last : List α) : List α := first.take (first.length - last.length)

/-- The elements with `p` come first. -/
def Partitioned (p : α → Bool) (l : List α) : Prop := l.Pairwise fun a b => p b = true → p a = true

theorem mem_lowerBound (h : Partitioned p l) {a : α} : a ∈ lowerBound p l ↔ a ∈ l ∧ p a = false := by
  induction l with
  | nil => simp [lowerBound]
  | cons b l ih =>
    obtain ⟨hb, hl⟩ := List.pairwise_cons.mp h
    rw [lowerBound, List.dropWhile_cons]
    cases hpb : p b with
    | true =>
      rw [if_pos rfl, List.mem_cons]
      refine (ih hl).trans ⟨fun ha => ⟨Or.inr ha.1, ha.2⟩, ?_⟩
      rintro ⟨rfl | ha, hpa⟩
      · rw [hpb] at hpa
        cases hpa
      · exact ⟨ha, hpa⟩
    | false =>
      rw [if_neg Bool.false_ne_true]
      refine ⟨fun ha => ⟨ha, ?_⟩, fun ha => ha.1⟩
      rcases List.mem_cons.mp ha with rfl | ha
      · exact hpb
      · cases hpa : p a with
        | false => rfl
        | true =>
          rw [hb a ha hpa] at hpb
          cases hpb

theorem lowerBound_sublist : (lowerBound p l).Sublist l := List.dropWhile_sublist p

theorem between_sublist (first last : List α) : (between first last).Sublist first := List.take_sublist _ _

theorem between_nil (first : List α) : between first [] = first := List.take_length

theorem lowerBound_lowerBound (hpq : ∀ a, p a = true → q a = true) :
    lowerBound q (lowerBound p l) = lowerBound q l := by
  induction l with
  | nil => rfl
  | cons a l ih =>
    cases hpa : p a with
    | true =>
      rw [lowerBound, lowerBound, List.dropWhile_cons_of_pos hpa, lowerBound,
        List.dropWhile_cons_of_pos (hpq a hpa)]
      exact ih
    | false =>
      rw [lowerBound, lowerBound, List.dropWhile_cons_of_neg (by simp [hpa])]
      rfl

theorem between_lowerBound (l : List α) : between l (lowerBound q l) = l.takeWhile q := by
  have happend : l.takeWhile q ++ l.dropWhile q = l := List.takeWhile_append_dropWhile
  have hlength := congrArg List.length happend
  rw [List.length_append] at hlength
  have htake : l.length - (l.dropWhile q).length = (l.takeWhile q).length := by omega
  rw [between, lowerBound, htake]
  exact (List.prefix_iff_eq_take.mp (List.takeWhile_prefix q)).symm

theorem mem_takeWhile (h : Partitioned q l) {a : α} : a ∈ l.takeWhile q ↔ a ∈ l ∧ q a = true := by
  induction l with
  | nil => simp
  | cons b l ih =>
    obtain ⟨hb, hl⟩ := List.pairwise_cons.mp h
    rw [List.takeWhile_cons]
    cases hqb : q b with
    | true =>
      rw [if_pos rfl, List.mem_cons, List.mem_cons, ih hl]
      constructor
      · rintro (rfl | ha)
        · exact ⟨Or.inl rfl, hqb⟩
        · exact ⟨Or.inr ha.1, ha.2⟩
      · rintro ⟨rfl | ha, hqa⟩
        · exact Or.inl rfl
        · exact Or.inr ⟨ha, hqa⟩
    | false =>
      rw [if_neg Bool.false_ne_true]
      refine iff_of_false List.not_mem_nil ?_
      rintro ⟨ha, hqa⟩
      rcases List.mem_cons.mp ha with rfl | ha
      · rw [hqb] at hqa
        cases hqa
      · rw [hb a ha hqa] at hqb
        cases hqb

/-- **The elements between two lower bounds.** -/
theorem mem_between_lowerBound (hp : Partitioned p l) (hq : Partitioned q l)
    (hpq : ∀ a, p a = true → q a = true) {a : α} :
    a ∈ between (lowerBound p l) (lowerBound q l) ↔ a ∈ l ∧ p a = false ∧ q a = true := by
  rw [← lowerBound_lowerBound hpq, between_lowerBound, mem_takeWhile (hq.sublist lowerBound_sublist),
    mem_lowerBound hp, and_assoc]

theorem find?_sorted {r : α → α → Prop} (h : l.Pairwise r) {a b : α} (ha : l.find? p = some a) (hb : b ∈ l)
    (hpb : p b = true) : b = a ∨ r a b := by
  obtain ⟨-, as, bs, rfl, has⟩ := List.find?_eq_some_iff_append.mp ha
  rcases List.mem_append.mp hb with hb | hb
  · have := has b hb
    rw [hpb] at this
    cases this
  · rcases List.mem_cons.mp hb with rfl | hb
    · exact Or.inl rfl
    · exact Or.inr ((List.pairwise_cons.mp (List.pairwise_append.mp h).2.1).1 b hb)

end RangeLib
