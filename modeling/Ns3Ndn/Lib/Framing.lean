import Mathlib

/-!
# Messages in frames

A sequence of messages is cut into frames. A frame holds pieces, each one a message or a part of one: only its first piece can
continue a message of the frame before (`continues`), and only its last piece can go on in the next frame (`more`).

* `Cut`: the messages that are left when pieces are taken from the front of a queue;
* **`Cut.read`**: a reader delivers what was taken, and keeps the beginning of what is left.
-/

namespace FramingLib

variable {α : Type}

@[ext]
structure Frame (α : Type) where
  continues : Bool
  pieces : List (List α)
  more : Bool

namespace Frame

/-- The messages in a frame, with the beginning that was kept before it. Without one, the end of a message is dropped. -/
def join (f : Frame α) (kept : Option (List α)) : List (List α) :=
  match f.continues, kept, f.pieces with
  | false, _, pieces => pieces
  | true, some k, p :: pieces => (k ++ p) :: pieces
  | true, none, _ :: pieces => pieces
  | true, _, [] => []

/-- The messages that a frame completes, and the beginning that it leaves. -/
def read (f : Frame α) (kept : Option (List α)) : List (List α) × Option (List α) :=
  if f.more then ((f.join kept).dropLast, (f.join kept).getLast?) else (f.join kept, none)

@[simp] theorem join_whole (pieces : List (List α)) (more : Bool) (kept : Option (List α)) :
    join ⟨false, pieces, more⟩ kept = pieces := rfl

@[simp] theorem join_kept (k p : List α) (pieces : List (List α)) (more : Bool) :
    join ⟨true, p :: pieces, more⟩ (some k) = (k ++ p) :: pieces := rfl

@[simp] theorem join_dropped (p : List α) (pieces : List (List α)) (more : Bool) :
    join ⟨true, p :: pieces, more⟩ none = pieces := rfl

end Frame

/-! ## Taking from a queue -/

/-- Pieces that are taken from the front of a queue. The last one can be a part, and what is left of it goes back. -/
inductive Cut : List (List α) → List (List α) → Bool → List (List α) → Prop
  | whole (p : List α) (rest : List (List α)) : Cut (p :: rest) [p] false rest
  | part (p q : List α) (rest : List (List α)) : Cut ((p ++ q) :: rest) [p] true (q :: rest)
  | next (p : List α) {queue taken rest : List (List α)} {more : Bool} (h : Cut queue taken more rest) :
      Cut (p :: queue) (p :: taken) more rest

/-- The messages of which the queue holds what was not sent yet. -/
def pending (kept : Option (List α)) (queue : List (List α)) : List (List α) :=
  match kept, queue with
  | none, queue => queue
  | some k, q :: rest => (k ++ q) :: rest
  | some k, [] => [k]

variable {queue taken rest : List (List α)}

theorem Cut.ne_nil {more : Bool} (h : Cut queue taken more rest) : taken ≠ [] := by
  cases h <;> exact List.cons_ne_nil _ _

theorem Cut.read_none {more : Bool} (h : Cut queue taken more rest) :
    (Frame.read ⟨false, taken, more⟩ none).1 ++ pending (Frame.read ⟨false, taken, more⟩ none).2 rest = queue ∧
      ((Frame.read ⟨false, taken, more⟩ none).2.isSome = more) := by
  induction h with
  | whole p rest => exact ⟨rfl, rfl⟩
  | part p q rest => exact ⟨rfl, rfl⟩
  | @next p queue taken rest more h ih =>
    obtain ⟨ihq, ihk⟩ := ih
    cases more with
    | false => exact ⟨congrArg (List.cons p) ihq, rfl⟩
    | true =>
      obtain ⟨a, l, rfl⟩ := List.exists_cons_of_ne_nil h.ne_nil
      exact ⟨congrArg (List.cons p) ihq, ihk⟩

/-- **Nothing is lost**: what a reader delivers at a frame, with what it keeps and what is left, is what was there before. -/
theorem Cut.read {more : Bool} (h : Cut queue taken more rest) (kept : Option (List α)) :
    (Frame.read ⟨kept.isSome, taken, more⟩ kept).1 ++ pending (Frame.read ⟨kept.isSome, taken, more⟩ kept).2 rest =
        pending kept queue ∧
      ((Frame.read ⟨kept.isSome, taken, more⟩ kept).2.isSome = more) := by
  cases kept with
  | none => exact h.read_none
  | some k =>
    cases h with
    | whole p rest => exact ⟨rfl, rfl⟩
    | part p q rest => exact ⟨by simp [Frame.read, pending], rfl⟩
    | @next p queue taken rest more h =>
      obtain ⟨hq, hk⟩ := h.read_none
      cases more with
      | false => exact ⟨congrArg (List.cons (k ++ p)) hq, rfl⟩
      | true =>
        obtain ⟨a, l, rfl⟩ := List.exists_cons_of_ne_nil h.ne_nil
        exact ⟨congrArg (List.cons (k ++ p)) hq, hk⟩

end FramingLib
