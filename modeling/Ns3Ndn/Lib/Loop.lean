import Mathlib

/-!
# Loops

A `while` loop is a function of its condition and its body. It runs for as many rounds as it is given fuel.

* `whileLoop`: the loop;
* `whileLoop_spec`, `whileLoop_spec_some`: the rule of total correctness, from an invariant and a variant.
-/

namespace LoopLib

variable {σ : Type*} {cond : σ → Bool} {body : σ → Option σ}

def whileLoop (cond : σ → Bool) (body : σ → Option σ) : ℕ → σ → Option σ
  | 0, _ => none
  | fuel + 1, s => if cond s then (body s).bind (whileLoop cond body fuel) else some s

variable {fuel : ℕ}

theorem whileLoop_of_true {s s' : σ} (hc : cond s = true) (hb : body s = some s') :
    whileLoop cond body (fuel + 1) s = whileLoop cond body fuel s' := by
  rw [whileLoop, if_pos hc, hb, Option.bind_some]

theorem whileLoop_of_false {s : σ} (hc : cond s = false) : whileLoop cond body (fuel + 1) s = some s := by
  simp [whileLoop, hc]

/-- **Total correctness**: rounds that keep the invariant and lower the variant end the loop, with the invariant and
without the condition. -/
theorem whileLoop_spec (I : σ → Prop) (variant : σ → ℕ)
    (round : ∀ s, I s → cond s = true → ∃ s', body s = some s' ∧ I s' ∧ variant s' < variant s)
    {s : σ} (inv : I s) (enough : variant s < fuel) :
    ∃ s', whileLoop cond body fuel s = some s' ∧ I s' ∧ cond s' = false := by
  induction fuel generalizing s with
  | zero => exact absurd enough (Nat.not_lt_zero _)
  | succ fuel ih =>
    cases hc : cond s with
    | false => exact ⟨s, whileLoop_of_false hc, inv, hc⟩
    | true =>
      obtain ⟨s', hb, hI, hv⟩ := round s inv hc
      rw [whileLoop_of_true hc hb]
      exact ih hI (by omega)

theorem whileLoop_spec_some {f : σ → σ} (I : σ → Prop) (variant : σ → ℕ)
    (round : ∀ s, I s → cond s = true → I (f s) ∧ variant (f s) < variant s) {s : σ} (inv : I s) (enough : variant s < fuel) :
    ∃ s', whileLoop cond (fun s => some (f s)) fuel s = some s' ∧ I s' ∧ cond s' = false :=
  whileLoop_spec I variant (fun s hI hc => ⟨f s, rfl, round s hI hc⟩) inv enough

end LoopLib
