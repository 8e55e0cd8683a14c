import Mathlib

/-!
# Walks in weighted graphs

Directed graphs whose edges have labels and weights, and walks that keep to some of the vertices.

* `Walk.le_of_potential`: a lower bound for the weights of walks;
* `Through`: the walks out of a vertex that begin with an edge of a label and do not come back.
-/

namespace WalkLib

/-- A graph, by its edges: from a vertex, with a label and a weight, to a vertex. -/
abbrev WGraph (V L : Type) := V → L → ℕ → V → Prop

variable {V L : Type}

/-- **A walk through the vertices of** `P`, with its weight. -/
inductive Walk (G : WGraph V L) (P : V → Prop) : V → V → ℕ → Prop
  | refl {v : V} (hv : P v) : Walk G P v v 0
  | cons {u v x : V} {l : L} {w n : ℕ} (hu : P u) (he : G u l w v) (h : Walk G P v x n) : Walk G P u x (w + n)

variable {G G' : WGraph V L} {P : V → Prop} {s u v : V} {l : L} {n : ℕ}

theorem Walk.source (h : Walk G P u v n) : P u := by
  cases h with
  | refl hv => exact hv
  | cons hu _ _ => exact hu

/-- Only the edges out of the vertices of `P` matter. -/
theorem Walk.congr (hG : ∀ u, P u → ∀ l w v, G u l w v → G' u l w v) (h : Walk G P u v n) : Walk G' P u v n := by
  induction h with
  | refl hv => exact .refl hv
  | cons hu he _ ih => exact .cons hu (hG _ hu _ _ _ he) ih

theorem walk_congr (hG : ∀ u, P u → ∀ l w v, G u l w v ↔ G' u l w v) : Walk G P u v n ↔ Walk G' P u v n :=
  ⟨.congr fun u hu l w v => (hG u hu l w v).mp, .congr fun u hu l w v => (hG u hu l w v).mpr⟩

/-- **A potential that no edge lowers by more than its weight** bounds the weights of walks. -/
theorem Walk.le_of_potential {φ : V → ℕ} (hφ : ∀ u l w v, P u → P v → G u l w v → φ u ≤ w + φ v) (h : Walk G P u v n) :
    φ u ≤ n + φ v := by
  induction h with
  | refl => omega
  | cons hu he hwalk ih =>
    have := hφ _ _ _ _ hu hwalk.source he
    omega

/-- A walk from `s` to `v` that begins with an edge of the label `l` and does not come back to `s`. -/
def Through (G : WGraph V L) (s : V) (l : L) (v : V) (d : ℕ) : Prop :=
  ∃ w x n, G s l w x ∧ Walk G (· ≠ s) x v n ∧ d = w + n

/-- The graph matters only off `s` and at the edges of the label. -/
theorem through_congr (hlabel : ∀ w x, G s l w x ↔ G' s l w x) (hG : ∀ u, u ≠ s → ∀ l w v, G u l w v ↔ G' u l w v) {d : ℕ} :
    Through G s l v d ↔ Through G' s l v d := by
  unfold Through
  simp only [hlabel, walk_congr hG]

end WalkLib
