import Mathlib

/-!
# Guarded writes

A serializer puts values one behind the other into memory and counts their sizes. Before each value it compares the count
with a limit, and at the first value that does not fit it stops. The count is modulo a word size, and it need not agree with
the place where the values really are.

* `Within`: all bytes of the writes are below a limit.
-/

namespace GuardedLib

variable {α : Type}

/-- A value with the size that it counts for, or a change of a value that is already there. -/
inductive Put (α : Type) where
  | put (x : α) (advance : ℕ)
  | patch (off : ℕ) (x : α)

/-- A value and its place. -/
abbrev Write (α : Type) := ℕ × α

def run (word limit : ℕ) : ℕ → ℕ → List (Put α) → List (Write α) × Bool
  | _, _, [] => ([], true)
  | size, cur, .patch off x :: ps =>
    let r := run word limit size cur ps
    ((off, x) :: r.1, r.2)
  | size, cur, .put x advance :: ps =>
    if (size + advance) % word ≤ limit then
      let r := run word limit ((size + advance) % word) (cur + advance) ps
      ((cur, x) :: r.1, r.2)
    else ([], false)

/-! ## Where the bytes are -/

section Extent

variable (len : α → ℕ)

def Within (limit : ℕ) (ws : List (Write α)) : Prop := ∀ w ∈ ws, ∀ i < len w.2, w.1 + i < limit

/-- The place behind the last byte of a write. -/
def writeEnd (w : Write α) : ℕ := if len w.2 = 0 then 0 else w.1 + len w.2

/-- The place behind the last byte. -/
def extent (ws : List (Write α)) : ℕ := (ws.map (writeEnd len)).foldr max 0

def shift (base : ℕ) (ws : List (Write α)) : List (Write α) := ws.map fun w => (base + w.1, w.2)

variable {len}

@[simp] theorem within_nil (limit : ℕ) : Within len limit [] := by
  simp [Within]

@[simp] theorem within_cons (limit : ℕ) (w : Write α) (ws : List (Write α)) :
    Within len limit (w :: ws) ↔ writeEnd len w ≤ limit ∧ Within len limit ws := by
  unfold Within writeEnd
  rw [List.forall_mem_cons]
  refine and_congr_left fun _ => ?_
  split
  · next h => simp [h]
  · next h =>
    constructor
    · intro hw
      have := hw (len w.2 - 1) (by omega)
      omega
    · intro hw i hi
      omega

@[simp] theorem within_append (limit : ℕ) (ws ws' : List (Write α)) :
    Within len limit (ws ++ ws') ↔ Within len limit ws ∧ Within len limit ws' := by
  unfold Within
  exact List.forall_mem_append

@[simp] theorem extent_nil : extent len ([] : List (Write α)) = 0 := rfl

@[simp] theorem extent_cons (w : Write α) (ws : List (Write α)) :
    extent len (w :: ws) = max (writeEnd len w) (extent len ws) := rfl

theorem within_iff (limit : ℕ) (ws : List (Write α)) : Within len limit ws ↔ extent len ws ≤ limit := by
  induction ws with
  | nil => simp
  | cons w ws ih => rw [within_cons, extent_cons, ih, max_le_iff]

theorem writeEnd_shift (base : ℕ) (w : Write α) :
    writeEnd len (base + w.1, w.2) = if writeEnd len w = 0 then 0 else base + writeEnd len w := by
  by_cases h : len w.2 = 0
  · simp [writeEnd, h]
  · simp [writeEnd, h, Nat.add_assoc]

theorem extent_shift (base : ℕ) (ws : List (Write α)) :
    extent len (shift base ws) = if extent len ws = 0 then 0 else base + extent len ws := by
  induction ws with
  | nil => simp [shift]
  | cons w ws ih =>
    have hcons : shift base (w :: ws) = (base + w.1, w.2) :: shift base ws := rfl
    rw [hcons, extent_cons, extent_cons, ih, writeEnd_shift]
    split <;> split <;> split <;> omega

end Extent

end GuardedLib
