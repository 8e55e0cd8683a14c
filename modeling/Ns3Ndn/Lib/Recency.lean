import Mathlib

/-!
# Recency

A history is a list of marks, the last one the newest, and each mark has a key. `Older l a b` says that the last mark of
`a` is before a mark of `b`. A queue in which each key is at the place of its last mark is in this order.

* **`pairwise_push`**: a mark, and its key at the end of the queue;
* `pairwise_concat`: a mark of a key that is not in the queue.
-/

namespace RecencyLib

variable {κ μ : Type} {key : μ → κ} {l : List μ} {m : μ} {a b : κ} {q : List κ}

/-- The last mark of `a` is before a mark of `b`. -/
def Older (key : μ → κ) (l : List μ) (a b : κ) : Prop :=
  ∃ pre m post, l = pre ++ m :: post ∧ key m = a ∧ (∀ x ∈ post, key x ≠ a) ∧ ∃ x ∈ post, key x = b

def lastMark [DecidableEq κ] (key : μ → κ) (l : List μ) (a : κ) : Option μ := l.reverse.find? fun x => key x = a

theorem lastMark_concat [DecidableEq κ] (key : μ → κ) (l : List μ) (m : μ) (a : κ) :
    lastMark key (l ++ [m]) a = if key m = a then some m else lastMark key l a := by
  rw [lastMark, List.reverse_concat, List.find?_cons]
  by_cases h : key m = a
  · simp [h]
  · simp [h, lastMark]

theorem mem_map_of_lastMark [DecidableEq κ] (h : lastMark key l a = some m) : a ∈ l.map key := by
  have hm := List.find?_some h
  rw [decide_eq_true_iff] at hm
  rw [← hm]
  exact List.mem_map_of_mem (List.mem_reverse.mp (List.mem_of_find?_eq_some h))

theorem Older.concat (h : Older key l a b) (hm : key m ≠ a) : Older key (l ++ [m]) a b := by
  obtain ⟨pre, m', post, rfl, ha, hpost, x, hx, hb⟩ := h
  refine ⟨pre, m', post ++ [m], by simp, ha, ?_, x, List.mem_append_left _ hx, hb⟩
  intro y hy
  rcases List.mem_append.mp hy with hy | hy
  · exact hpost y hy
  · rwa [List.mem_singleton.mp hy]

theorem exists_last (ha : a ∈ l.map key) : ∃ pre m post, l = pre ++ m :: post ∧ key m = a ∧ ∀ x ∈ post, key x ≠ a := by
  induction l with
  | nil => simp at ha
  | cons x l ih =>
    by_cases hl : a ∈ l.map key
    · obtain ⟨pre, m, post, rfl, hm, hpost⟩ := ih hl
      exact ⟨x :: pre, m, post, rfl, hm, hpost⟩
    · have hx : key x = a := ((List.mem_cons.mp ha).resolve_right hl).symm
      exact ⟨[], x, l, rfl, hx, fun y hy hya => hl (hya ▸ List.mem_map_of_mem hy)⟩

theorem older_concat (ha : a ∈ l.map key) (hm : key m ≠ a) : Older key (l ++ [m]) a (key m) := by
  obtain ⟨pre, m', post, rfl, hm', hpost⟩ := exists_last ha
  refine ⟨pre, m', post ++ [m], by simp, hm', ?_, m, by simp, rfl⟩
  intro y hy
  rcases List.mem_append.mp hy with hy | hy
  · exact hpost y hy
  · rwa [List.mem_singleton.mp hy]

theorem pairwise_concat (h : q.Pairwise (Older key l)) (hm : key m ∉ q) : q.Pairwise (Older key (l ++ [m])) := by
  refine h.imp_of_mem fun {a b} ha _ hab => hab.concat ?_
  rintro rfl
  exact hm ha

/-- **A new mark**, and its key at the end of the queue. -/
theorem pairwise_push (h : q.Pairwise (Older key l)) (hq : ∀ a ∈ q, a ∈ l.map key) (hm : key m ∉ q) :
    (q ++ [key m]).Pairwise (Older key (l ++ [m])) := by
  rw [List.pairwise_append]
  refine ⟨pairwise_concat h hm, List.pairwise_singleton _ _, fun a ha b hb => ?_⟩
  rw [List.mem_singleton.mp hb]
  refine older_concat (hq a ha) ?_
  rintro rfl
  exact hm ha

end RecencyLib
