import Mathlib

/-!
# Ranges that are joined where they meet

A list of ranges with gaps between them. A new range that overlaps none of them is joined with those that it meets, one at
its beginning and one at its end, and there are gaps again.

* `Gap`, `Off`: ranges with a gap between them, and ranges that do not overlap; `join`, `joinAll`;
* `join_eq_none`, `join_eq_some`: what is joined; **`joinAll_spec`**: the ranges after.
-/

namespace RangeLib

variable {α : Type} [LinearOrder α] {x y z : α × α} {l : List (α × α)} {m : (α × α) × List (α × α)}

def Gap (x y : α × α) : Prop := x.2 < y.1 ∨ y.2 < x.1

def Off (x y : α × α) : Prop := x.2 ≤ y.1 ∨ y.2 ≤ x.1

/-- The first range of a list that meets a range, made one with it, and the rest of the list. -/
def join (x : α × α) : List (α × α) → Option ((α × α) × List (α × α))
  | [] => none
  | y :: rest =>
    if x.1 = y.2 then some ((y.1, x.2), rest)
    else if x.2 = y.1 then some ((x.1, y.2), rest)
    else (join x rest).map fun m => (m.1, y :: m.2)

/-- Ranges are joined as long as one meets, at most as often as is said. -/
def joinAll : ℕ → α × α → List (α × α) → List (α × α)
  | 0, x, l => x :: l
  | n + 1, x, l =>
    match join x l with
    | none => x :: l
    | some m => joinAll n m.1 m.2

theorem Gap.symm (h : Gap x y) : Gap y x := Or.symm h

theorem join_eq_none (h : join x l = none) : ∀ y ∈ l, x.1 ≠ y.2 ∧ x.2 ≠ y.1 := by
  induction l with
  | nil => exact fun y hy => absurd hy List.not_mem_nil
  | cons y rest ih =>
    rw [join] at h
    split_ifs at h with hleft hright
    exact List.forall_mem_cons.mpr ⟨⟨hleft, hright⟩, ih (Option.map_eq_none_iff.mp h)⟩

theorem join_eq_some (h : join x l = some m) : ∃ z, l.Perm (z :: m.2) ∧ m.2.Sublist l ∧
    (x.1 = z.2 ∧ m.1 = (z.1, x.2) ∨ x.2 = z.1 ∧ m.1 = (x.1, z.2)) := by
  induction l generalizing m with
  | nil => exact absurd h (Option.some_ne_none m).symm
  | cons y rest ih =>
    rw [join] at h
    split_ifs at h with hleft hright
    · obtain rfl := Option.some.inj h
      exact ⟨y, List.Perm.refl _, List.sublist_cons_self y rest, .inl ⟨hleft, rfl⟩⟩
    · obtain rfl := Option.some.inj h
      exact ⟨y, List.Perm.refl _, List.sublist_cons_self y rest, .inr ⟨hright, rfl⟩⟩
    · obtain ⟨m', hm', rfl⟩ := Option.map_eq_some_iff.mp h
      obtain ⟨z, hperm, hsub, hjoined⟩ := ih hm'
      exact ⟨z, (hperm.cons y).trans (List.Perm.swap z y _), hsub.cons_cons y, hjoined⟩

theorem off_of_join (hl : ∀ y ∈ l, y.1 < y.2 ∧ Off x y) (hgap : l.Pairwise Gap) (h : join x l = some m) :
    m.1.1 ≤ x.1 ∧ x.2 ≤ m.1.2 ∧ m.2.length < l.length ∧ m.2.Sublist l ∧ ∀ y ∈ m.2, Off m.1 y := by
  obtain ⟨z, hperm, hsub, hjoined⟩ := join_eq_some h
  obtain ⟨hz, -⟩ := hl z (hperm.mem_iff.mpr List.mem_cons_self)
  obtain ⟨hzgap, -⟩ := List.pairwise_cons.mp (hperm.pairwise_iff Gap.symm |>.mp hgap)
  have hlength : m.2.length < l.length := by
    rw [hperm.length_eq, List.length_cons]
    exact Nat.lt_succ_self _
  rcases hjoined with ⟨hmeet, heq⟩ | ⟨hmeet, heq⟩ <;> rw [heq]
  · refine ⟨hmeet ▸ hz.le, le_rfl, hlength, hsub, fun y hy => ?_⟩
    obtain ⟨hy', hoff⟩ := hl y (hsub.subset hy)
    rcases hoff with hoff | hoff
    · exact .inl hoff
    · rcases hzgap y hy with hbefore | hafter
      · exact absurd (hmeet ▸ hy'.trans_le hoff) (not_lt.mpr hbefore.le)
      · exact .inr hafter.le
  · refine ⟨le_rfl, hmeet ▸ hz.le, hlength, hsub, fun y hy => ?_⟩
    obtain ⟨hy', hoff⟩ := hl y (hsub.subset hy)
    rcases hoff with hoff | hoff
    · rcases hzgap y hy with hbefore | hafter
      · exact .inl hbefore.le
      · exact absurd (hmeet ▸ hoff.trans_lt hy') (not_lt.mpr hafter.le)
    · exact .inr hoff

/-- **A new range**, joined with those that it meets, comes first, and there are gaps between all of them. -/
theorem joinAll_spec {n : ℕ} (hn : l.length ≤ n) (hx : x.1 < x.2) (hl : ∀ y ∈ l, y.1 < y.2 ∧ Off x y)
    (hgap : l.Pairwise Gap) : ∃ z rest, joinAll n x l = z :: rest ∧ z.1 ≤ x.1 ∧ x.2 ≤ z.2 ∧ rest.Sublist l ∧
      (z :: rest).Pairwise Gap := by
  induction n generalizing x l with
  | zero =>
    obtain rfl := List.eq_nil_of_length_eq_zero (Nat.le_zero.mp hn)
    exact ⟨x, [], rfl, le_rfl, le_rfl, List.Sublist.refl _, List.pairwise_singleton _ x⟩
  | succ n ih =>
    rw [joinAll]
    cases h : join x l with
    | none =>
      refine ⟨x, l, rfl, le_rfl, le_rfl, List.Sublist.refl _, List.pairwise_cons.mpr ⟨fun y hy => ?_, hgap⟩⟩
      obtain ⟨hleft, hright⟩ := join_eq_none h y hy
      exact (hl y hy).2.imp (fun hle => lt_of_le_of_ne hle hright) fun hle => lt_of_le_of_ne hle hleft.symm
    | some m =>
      obtain ⟨hfirst, hlast, hlength, hsub, hoff⟩ := off_of_join hl hgap h
      obtain ⟨z, rest, hall, hz, hz', hrest, hgap'⟩ := ih (by omega) (hfirst.trans_lt (hx.trans_le hlast))
        (fun y hy => ⟨(hl y (hsub.subset hy)).1, hoff y hy⟩) (hgap.sublist hsub)
      exact ⟨z, rest, hall, hz.trans hfirst, hlast.trans hz', hrest.trans hsub, hgap'⟩

end RangeLib
