import Mathlib

/-!
# Buckets

An array of lists, as a function of which the first `n` values are used, insertion into a sorted list before the
first greater element, and lookup in a list by a key.
-/

namespace BucketLib

variable {α : Type*}

/-- The elements of the first `n` buckets. -/
def stored (n : ℕ) (b : ℕ → List α) : List α := (List.range n).flatMap b

theorem mem_stored {n : ℕ} {b : ℕ → List α} {a : α} : a ∈ stored n b ↔ ∃ i < n, a ∈ b i := by
  simp [stored]

theorem sublist_stored {n i : ℕ} (b : ℕ → List α) (hi : i < n) : (b i).Sublist (stored n b) := by
  rw [stored, List.flatMap_def]
  exact List.sublist_flatten_of_mem (List.mem_map.mpr ⟨i, List.mem_range.mpr hi, rfl⟩)

theorem stored_congr {n : ℕ} {b b' : ℕ → List α} (h : ∀ i < n, b i = b' i) : stored n b = stored n b' := by
  refine List.flatMap_congr fun i hi => ?_
  exact h i (List.mem_range.mp hi)

/-- **One more element in a bucket.** -/
theorem stored_update {n i : ℕ} {b : ℕ → List α} {l : List α} {a : α} (hi : i < n) (hl : l.Perm (a :: b i)) :
    (stored n (Function.update b i l)).Perm (a :: stored n b) := by
  induction n with
  | zero => exact absurd hi (Nat.not_lt_zero i)
  | succ n ih =>
    rw [stored, stored, List.range_succ, List.flatMap_append, List.flatMap_append, List.flatMap_singleton,
      List.flatMap_singleton]
    rcases Nat.lt_succ_iff_lt_or_eq.mp hi with hlt | rfl
    · rw [Function.update_of_ne hlt.ne']
      exact (ih hlt).append_right _
    · have hrest : (List.range i).flatMap (Function.update b i l) = (List.range i).flatMap b :=
        stored_congr fun j hj => Function.update_of_ne hj.ne _ _
      rw [hrest, Function.update_self]
      exact (hl.append_left _).trans List.perm_middle

def insertBy (before : α → α → Bool) : List α → α → List α
  | [], a => [a]
  | x :: l, a => if before a x then a :: x :: l else x :: insertBy before l a

theorem insertBy_perm (before : α → α → Bool) (l : List α) (a : α) : (insertBy before l a).Perm (a :: l) := by
  induction l with
  | nil => exact List.Perm.refl _
  | cons x l ih =>
    rw [insertBy]
    split_ifs
    · exact List.Perm.refl _
    · exact (ih.cons x).trans (List.Perm.swap a x l)

/-- **Insertion keeps a list in order.** -/
theorem pairwise_insertBy {before : α → α → Bool} {r : α → α → Prop} {l : List α} (a : α) (h : l.Pairwise r)
    (htrans : ∀ {x y z}, r x y → r y z → r x z) (hpos : ∀ x ∈ l, before a x = true → r a x)
    (hneg : ∀ x ∈ l, before a x = false → r x a) : (insertBy before l a).Pairwise r := by
  induction l with
  | nil => exact List.pairwise_singleton _ _
  | cons x l ih =>
    obtain ⟨hx, hl⟩ := List.pairwise_cons.mp h
    rw [insertBy]
    split_ifs with hbefore
    · refine List.pairwise_cons.mpr ⟨fun y hy => ?_, h⟩
      rcases List.mem_cons.mp hy with rfl | hy
      · exact hpos y List.mem_cons_self hbefore
      · exact htrans (hpos x List.mem_cons_self hbefore) (hx y hy)
    · have hrest := ih hl (fun y hy => hpos y (List.mem_cons_of_mem x hy)) fun y hy => hneg y (List.mem_cons_of_mem x hy)
      refine List.pairwise_cons.mpr ⟨fun y hy => ?_, hrest⟩
      rcases List.mem_cons.mp ((insertBy_perm before l a).mem_iff.mp hy) with rfl | hy
      · exact hneg x List.mem_cons_self (Bool.eq_false_iff.mpr hbefore)
      · exact hx y hy

/-- **Lookup by a key** that no two elements share. -/
theorem find?_key_eq_some_iff {κ : Type*} [DecidableEq κ] {key : α → κ} {l : List α} (h : (l.map key).Nodup) {k : κ}
    {a : α} : (l.find? fun x => key x == k) = some a ↔ a ∈ l ∧ key a = k := by
  constructor
  · intro hfind
    exact ⟨List.mem_of_find?_eq_some hfind, by simpa using List.find?_some hfind⟩
  · rintro ⟨ha, rfl⟩
    cases hfind : l.find? fun x => key x == key a with
    | none =>
      have hnone := List.find?_eq_none.mp hfind a ha
      simp at hnone
    | some b =>
      have hkey : key b = key a := by simpa using List.find?_some hfind
      rw [List.inj_on_of_nodup_map h (List.mem_of_find?_eq_some hfind) ha hkey]

theorem mem_eraseP_key {κ : Type*} [DecidableEq κ] {key : α → κ} {l : List α} (h : (l.map key).Nodup) {k : κ} {a : α} :
    a ∈ (l.eraseP fun x => key x == k) ↔ a ∈ l ∧ key a ≠ k := by
  induction l with
  | nil => simp
  | cons x l ih =>
    obtain ⟨hx, hl⟩ := List.nodup_cons.mp h
    by_cases hk : key x = k
    · rw [List.eraseP_cons_of_pos (by simpa using hk), List.mem_cons]
      constructor
      · intro ha
        exact ⟨.inr ha, fun hak => hx (List.mem_map.mpr ⟨a, ha, hak.trans hk.symm⟩)⟩
      · rintro ⟨rfl | ha, hne⟩
        · exact absurd hk hne
        · exact ha
    · rw [List.eraseP_cons_of_neg (by simpa using hk), List.mem_cons, List.mem_cons, ih hl]
      constructor
      · rintro (rfl | ⟨ha, hne⟩)
        · exact ⟨.inl rfl, hk⟩
        · exact ⟨.inr ha, hne⟩
      · rintro ⟨rfl | ha, hne⟩
        · exact .inl rfl
        · exact .inr ⟨ha, hne⟩

end BucketLib
