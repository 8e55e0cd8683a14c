import Mathlib.Logic.Function.Basic
import Mathlib.Data.List.Basic

/-!
# Machines by key

A machine reads inputs and gives outputs. Many machines of one kind stand side by side, one for each key, and an input goes
to the machine of its key.

* `runOut`: a machine on a list of inputs;
* `demux`, **`runOut_demux`**: the machine of a key sees the inputs of its key, and nothing else.
-/

namespace DemuxLib

open Function

variable {κ ι σ ω : Type}

/-- All inputs, one after the other: the state, and what is given out. -/
def runOut (step : σ → ι → σ × List ω) (s : σ) : List ι → σ × List ω
  | [] => (s, [])
  | i :: l => ((runOut step (step s i).1 l).1, (step s i).2 ++ (runOut step (step s i).1 l).2)

section Run

variable (step : σ → ι → σ × List ω)

@[simp] theorem runOut_nil (s : σ) : runOut step s [] = (s, []) := rfl

theorem runOut_cons (s : σ) (i : ι) (l : List ι) : runOut step s (i :: l) =
    ((runOut step (step s i).1 l).1, (step s i).2 ++ (runOut step (step s i).1 l).2) := rfl

theorem runOut_induction {P : σ → Prop} (hstep : ∀ s i, P s → P (step s i).1) {s : σ} (hs : P s) (l : List ι) :
    P (runOut step s l).1 := by
  induction l generalizing s with
  | nil => exact hs
  | cons i l ih => exact ih (hstep s i hs)

theorem runOut_of_ignored {s : σ} {l : List ι} (h : ∀ i ∈ l, step s i = (s, [])) : runOut step s l = (s, []) := by
  induction l with
  | nil => rfl
  | cons i l ih =>
    obtain ⟨hi, hl⟩ := List.forall_mem_cons.mp h
    rw [runOut_cons, hi, ih hl]
    rfl

end Run

section Keys

variable [DecidableEq κ] (key : ι → κ) (step : σ → ι → σ × List ω)

/-- An input goes to the machine of its key. -/
def demux (s : κ → σ) (i : ι) : (κ → σ) × List ω :=
  (update s (key i) (step (s (key i)) i).1, (step (s (key i)) i).2)

theorem demux_of_ne (s : κ → σ) {i : ι} {k : κ} (h : key i ≠ k) : (demux key step s i).1 k = s k :=
  update_of_ne (Ne.symm h) _ _

theorem demux_self (s : κ → σ) (i : ι) : (demux key step s i).1 (key i) = (step (s (key i)) i).1 := update_self _ _ _

/-- **A machine among others is the machine alone**, on the inputs of its key. -/
theorem runOut_demux (okey : ω → κ) (hout : ∀ s i, ∀ o ∈ (step s i).2, okey o = key i) (k : κ) (s : κ → σ) (l : List ι) :
    (runOut (demux key step) s l).1 k = (runOut step (s k) (l.filter fun i => key i = k)).1 ∧
      ((runOut (demux key step) s l).2.filter fun o => okey o = k) =
        (runOut step (s k) (l.filter fun i => key i = k)).2 := by
  induction l generalizing s with
  | nil => exact ⟨rfl, rfl⟩
  | cons i l ih =>
    obtain ⟨hstate, hout'⟩ := ih (demux key step s i).1
    rw [runOut_cons, List.filter_append, hout', hstate]
    by_cases hi : key i = k
    · subst hi
      have hall : ((step (s (key i)) i).2.filter fun o => okey o = key i) = (step (s (key i)) i).2 :=
        List.filter_eq_self.mpr fun o ho => decide_eq_true (hout _ _ o ho)
      have hcons : ((i :: l).filter fun j => key j = key i) = i :: l.filter fun j => key j = key i :=
        List.filter_cons_of_pos (decide_eq_true rfl)
      rw [hcons, runOut_cons, demux_self]
      exact ⟨rfl, congrArg (· ++ _) hall⟩
    · have hnone : ((step (s (key i)) i).2.filter fun o => okey o = k) = [] := by
        refine List.filter_eq_nil_iff.mpr fun o ho => ?_
        rw [hout _ _ o ho, decide_eq_true_eq]
        exact hi
      have hcons : ((i :: l).filter fun j => key j = k) = l.filter fun j => key j = k :=
        List.filter_cons_of_neg (by rwa [decide_eq_true_eq])
      rw [hcons, demux_of_ne key step s hi]
      exact ⟨rfl, congrArg (· ++ _) hnone⟩

end Keys

end DemuxLib
