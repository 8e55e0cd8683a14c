import Mathlib

/-!
# Properties of runs

A run is a list of steps. A property of the state reached that a step keeps exactly when the step
meets a condition holds all along a run exactly when every step of the run meets it. For programs
that can fail, `Yields E P x` says that `x` returns a value with `P` or fails with an error in `E`.

* `Yields.bind`, `Yields.map`, `Yields.foldlM`: the rules for sequences and loops.
-/

namespace RunLib

variable {α : Type*}

/-- **A property along a run is a condition on its steps**, for a property that each step keeps
just when it meets the condition. -/
theorem forall_prefix_iff_forall_step {P : List α → Prop} {Q : List α → α → Prop}
    (init : P []) (step : ∀ l a, P l → (P (l ++ [a]) ↔ Q l a)) (run : List α) :
    (∀ l, l <+: run → P l) ↔ ∀ l a, l ++ [a] <+: run → Q l a := by
  constructor
  · intro h l a hl
    exact (step l a (h l ((List.prefix_append l [a]).trans hl))).mp (h _ hl)
  · intro h l
    induction l using List.reverseRecOn with
    | nil => exact fun _ => init
    | append_singleton l a ih =>
      intro hl
      exact (step l a (ih ((List.prefix_append l [a]).trans hl))).mpr (h l a hl)

theorem forall_prefix_iff_of_inv {P R : List α → Prop} {Q : List α → α → Prop} (init : R []) (imp : ∀ l, R l → P l)
    (step : ∀ l a, R l → Q l a → R (l ++ [a])) (only : ∀ l a, R l → P (l ++ [a]) → Q l a) (run : List α) :
    (∀ l, l <+: run → P l) ↔ ∀ l a, l ++ [a] <+: run → Q l a := by
  constructor
  · intro h l
    suffices hR : l <+: run → R l from fun a hl => only l a (hR ((List.prefix_append l [a]).trans hl)) (h _ hl)
    induction l using List.reverseRecOn with
    | nil => exact fun _ => init
    | append_singleton l a ih =>
      intro hl
      have hl' := ih ((List.prefix_append l [a]).trans hl)
      exact step l a hl' (only l a hl' (h _ hl))
  · intro h l
    suffices hR : l <+: run → R l from fun hl => imp l (hR hl)
    induction l using List.reverseRecOn with
    | nil => exact fun _ => init
    | append_singleton l a ih =>
      intro hl
      exact step l a (ih ((List.prefix_append l [a]).trans hl)) (h l a hl)

/-- Two properties of steps that are the same while an invariant holds, which the first one keeps. -/
theorem forall_step_iff_of_inv {R : List α → Prop} {P Q : List α → α → Prop} {run : List α} (init : R [])
    (step : ∀ l a, l ++ [a] <+: run → R l → P l a → R (l ++ [a]))
    (iff : ∀ l a, l ++ [a] <+: run → R l → (P l a ↔ Q l a)) :
    (∀ l a, l ++ [a] <+: run → P l a) ↔ ∀ l a, l ++ [a] <+: run → Q l a := by
  have hinv : ∀ T : List α → α → Prop, (∀ l a, l ++ [a] <+: run → R l → T l a → P l a) →
      (∀ l a, l ++ [a] <+: run → T l a) → ∀ l, l <+: run → R l := by
    intro T hT h l
    induction l using List.reverseRecOn with
    | nil => exact fun _ => init
    | append_singleton l a ih =>
      intro hl
      have hR := ih ((List.prefix_append l [a]).trans hl)
      exact step l a hl hR (hT l a hl hR (h l a hl))
  constructor
  · intro h l a hl
    exact (iff l a hl (hinv P (fun _ _ _ _ => id) h l ((List.prefix_append l [a]).trans hl))).mp (h l a hl)
  · intro h l a hl
    have hR := hinv Q (fun l a hl hR => (iff l a hl hR).mpr) h l ((List.prefix_append l [a]).trans hl)
    exact (iff l a hl hR).mpr (h l a hl)

theorem forall_step_iff_forall_fin {Q : List α → α → Prop} {run : List α} :
    (∀ l a, l ++ [a] <+: run → Q l a) ↔ ∀ i : Fin run.length, Q (run.take i) (run.get i) := by
  constructor
  · intro h i
    refine h _ _ ?_
    rw [List.get_eq_getElem, List.take_concat_get' run i i.2]
    exact List.take_prefix _ _
  · rintro h l a ⟨rest, rfl⟩
    have hi : l.length < (l ++ [a] ++ rest).length := by
      simp only [List.length_append, List.length_singleton]
      omega
    have ha := h ⟨l.length, hi⟩
    simpa using ha

/-! ## Programs that can fail -/

section Yields

variable {ε β γ : Type} {E : ε → Prop} {P : β → Prop} {Q : γ → Prop}

/-- The program returns a value with `P` or fails with an error in `E`. -/
def Yields (E : ε → Prop) (P : β → Prop) : Except ε β → Prop
  | .ok b => P b
  | .error e => E e

variable {x : Except ε β}

theorem Yields.mono {P' : β → Prop} (h : Yields E P x) (hP : ∀ b, P b → P' b) :
    Yields E P' x := by
  cases x with
  | ok b => exact hP b h
  | error e => exact h

theorem Yields.mono_error {E' : ε → Prop} (h : Yields E P x) (hE : ∀ e, E e → E' e) : Yields E' P x := by
  cases x with
  | ok b => exact h
  | error e => exact hE e h

theorem Yields.bind {f : β → Except ε γ} (h : Yields E P x)
    (hf : ∀ b, P b → Yields E Q (f b)) : Yields E Q (x.bind f) := by
  cases x with
  | ok b => exact hf b h
  | error e => exact h

theorem Yields.map {f : β → γ} (h : Yields E P x) (hf : ∀ b, P b → Q (f b)) :
    Yields E Q (x.map f) := by
  cases x with
  | ok b => exact hf b h
  | error e => exact h

/-- **The loop rule**: a loop keeps what each turn keeps. -/
theorem Yields.foldlM {f : β → α → Except ε β} {l : List α} {b : β} (hb : P b)
    (hf : ∀ a ∈ l, ∀ b, P b → Yields E P (f b a)) : Yields E P (l.foldlM f b) := by
  induction l generalizing b with
  | nil => exact hb
  | cons a l ih =>
    rw [List.foldlM_cons]
    refine Yields.bind (hf a List.mem_cons_self b hb) fun b' hb' => ?_
    exact ih hb' fun a' ha' => hf a' (List.mem_cons_of_mem _ ha')

end Yields

end RunLib
