import Ns3Ndn.Lib.Slice

/-!
# Pieces of a list

Pieces of a list with the places they begin at, which may overlap. Sorted by their places, they are put together from the
left, where each piece adds what is beyond those before it.

* `extend`, **`extend_take`**: what a piece adds.
-/

namespace PieceLib

open SliceLib

variable {α : Type} {src : List α} {p : List α × ℕ} {l : List (List α × ℕ)} {e : ℕ}

/-- The end of a piece. -/
def stop (p : List α × ℕ) : ℕ := p.2 + p.1.length

structure IsPiece (src : List α) (p : List α × ℕ) : Prop where
  eq : p.1 = slice src p.2 (stop p)
  le : stop p ≤ src.length

/-- Every place in a range is in a piece. -/
def Covers (lo hi : ℕ) (l : List (List α × ℕ)) : Prop := ∀ i, lo ≤ i → i < hi → ∃ p ∈ l, p.2 ≤ i ∧ i < stop p

/-- No piece begins beyond the end of those before it. -/
def contiguous : ℕ → List (List α × ℕ) → Bool
  | _, [] => true
  | e, p :: rest => if e < p.2 then false else contiguous (max e (stop p)) rest

/-- The end of the pieces. -/
def reach : ℕ → List (List α × ℕ) → ℕ
  | e, [] => e
  | e, p :: rest => reach (max e (stop p)) rest

def extend (acc : List α) (p : List α × ℕ) : List α := acc ++ p.1.drop (acc.length - p.2)

def gather (acc : List α) (l : List (List α × ℕ)) : List α := l.foldl extend acc

theorem le_reach (e : ℕ) (l : List (List α × ℕ)) : e ≤ reach e l := by
  induction l generalizing e with
  | nil => exact le_rfl
  | cons p rest ih => exact (le_max_left _ _).trans (ih _)

theorem stop_le_reach (hp : p ∈ l) : stop p ≤ reach e l := by
  induction l generalizing e with
  | nil => exact absurd hp List.not_mem_nil
  | cons q rest ih =>
    rcases List.mem_cons.mp hp with rfl | hp
    · exact (le_max_right _ _).trans (le_reach _ _)
    · exact ih hp

theorem reach_le {n : ℕ} (he : e ≤ n) (hl : ∀ p ∈ l, stop p ≤ n) : reach e l ≤ n := by
  induction l generalizing e with
  | nil => exact he
  | cons p rest ih =>
    exact ih (max_le he (hl p List.mem_cons_self)) fun q hq => hl q (List.mem_cons_of_mem p hq)

/-- **Sorted pieces without a gap** cover all up to their end. -/
theorem covers_of_contiguous (h : contiguous e l = true) : Covers e (reach e l) l := by
  induction l generalizing e with
  | nil => exact fun i hi hi' => absurd hi' (not_lt.mpr hi)
  | cons p rest ih =>
    rw [contiguous] at h
    split_ifs at h with hgap
    intro i hi hi'
    rcases lt_or_ge i (max e (stop p)) with hlt | hge
    · rcases lt_max_iff.mp hlt with hlt | hlt
      · exact absurd hlt (not_lt.mpr hi)
      · exact ⟨p, List.mem_cons_self, (not_lt.mp hgap).trans hi, hlt⟩
    · obtain ⟨q, hq, hin⟩ := ih h i hge hi'
      exact ⟨q, List.mem_cons_of_mem p hq, hin⟩

theorem contiguous_of_covers {n : ℕ} (hsorted : l.Pairwise fun p q => p.2 ≤ q.2) (hl : ∀ p ∈ l, p.2 ≤ n)
    (h : Covers e n l) : contiguous e l = true := by
  induction l generalizing e with
  | nil => rfl
  | cons p rest ih =>
    obtain ⟨hfirst, hsorted⟩ := List.pairwise_cons.mp hsorted
    have hgap : ¬ e < p.2 := by
      intro hlt
      obtain ⟨q, hq, hle, -⟩ := h e le_rfl (hlt.trans_le (hl p List.mem_cons_self))
      rcases List.mem_cons.mp hq with rfl | hq
      · omega
      · have hpq := hfirst q hq
        omega
    rw [contiguous, if_neg hgap]
    refine ih hsorted (fun q hq => hl q (List.mem_cons_of_mem p hq)) fun i hi hi' => ?_
    obtain ⟨q, hq, hin⟩ := h i ((le_max_left _ _).trans hi) hi'
    rcases List.mem_cons.mp hq with rfl | hq
    · exact absurd hin.2 (not_lt.mpr ((le_max_right _ _).trans hi))
    · exact ⟨q, hq, hin⟩

theorem extend_take (hp : IsPiece src p) (he : e ≤ src.length) (hgap : p.2 ≤ e) :
    extend (src.take e) p = src.take (max e (stop p)) := by
  have hle := hp.le
  have hslice : ∀ n, src.take n = slice src 0 n := fun n => by rw [slice, List.drop_zero, Nat.sub_zero]
  rw [extend, List.length_take, min_eq_left he, hp.eq, drop_slice, Nat.add_sub_cancel' hgap, hslice, hslice]
  rcases le_total (stop p) e with hshort | hlong
  · rw [max_eq_left hshort, slice_eq_nil hshort, List.append_nil]
  · rw [max_eq_right hlong, slice_append_slice (Nat.zero_le e) hlong he]

end PieceLib
