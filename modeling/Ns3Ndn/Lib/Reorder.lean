import Ns3Ndn.Lib.OrdMap

/-!
# Reordering

Numbered items arrive in any order, and are passed on in the order of their numbers, all those before `start`. Items
behind `start` are too late, and `start` moves on over the items that are there.

* **`delivered_prefix`**: what was passed on is the beginning of what will be passed on.
-/

namespace ReorderLib

open OrdLib

variable {α : Type}

/-! ## The next number -/

/-- The least number from `n` on that is not in a sorted list. -/
def firstMissing : ℕ → List (ℕ × α) → ℕ
  | n, [] => n
  | n, e :: rest => if e.1 < n then firstMissing n rest else if e.1 = n then firstMissing (n + 1) rest else n

theorem firstMissing_cons (n : ℕ) (e : ℕ × α) (l : List (ℕ × α)) :
    firstMissing n (e :: l) = if e.1 < n then firstMissing n l else if e.1 = n then firstMissing (n + 1) l else n := rfl

theorem le_firstMissing (n : ℕ) (l : List (ℕ × α)) : n ≤ firstMissing n l := by
  induction l generalizing n with
  | nil => exact le_rfl
  | cons e rest ih =>
    rw [firstMissing_cons]
    split_ifs
    · exact ih n
    · exact (Nat.le_succ n).trans (ih (n + 1))
    · exact le_rfl

theorem firstMissing_le {n k : ℕ} {l : List (ℕ × α)} (hn : n ≤ k) (hl : ∀ e ∈ l, e.1 < k) : firstMissing n l ≤ k := by
  induction l generalizing n with
  | nil => exact hn
  | cons e rest ih =>
    have hrest : ∀ f ∈ rest, f.1 < k := fun f hf => hl f (List.mem_cons_of_mem e hf)
    rw [firstMissing_cons]
    split_ifs with hlt heq
    · exact ih hn hrest
    · exact ih (heq ▸ hl e List.mem_cons_self) hrest
    · exact hn

theorem firstMissing_notMem {n : ℕ} {l : List (ℕ × α)} (h : SortedL l) : ∀ e ∈ l, e.1 ≠ firstMissing n l := by
  induction l generalizing n with
  | nil => simp
  | cons e rest ih =>
    obtain ⟨he, hrest⟩ := List.pairwise_cons.mp h
    rw [firstMissing_cons]
    split_ifs with hlt heq
    · intro f hf
      rcases List.mem_cons.mp hf with rfl | hf
      · exact (hlt.trans_le (le_firstMissing n rest)).ne
      · exact ih hrest f hf
    · intro f hf
      rcases List.mem_cons.mp hf with rfl | hf
      · exact (heq.trans_lt ((Nat.lt_succ_self n).trans_le (le_firstMissing (n + 1) rest))).ne
      · exact ih hrest f hf
    · intro f hf
      rcases List.mem_cons.mp hf with rfl | hf
      · exact heq
      · have hlt' := he f hf
        omega

theorem exists_mem_of_lt_firstMissing {n k : ℕ} {l : List (ℕ × α)} (hn : n ≤ k) (hk : k < firstMissing n l) :
    ∃ e ∈ l, e.1 = k := by
  induction l generalizing n with
  | nil => exact absurd hk (not_lt.mpr hn)
  | cons e rest ih =>
    rw [firstMissing_cons] at hk
    split_ifs at hk with hlt heq
    · obtain ⟨f, hf, hfk⟩ := ih hn hk
      exact ⟨f, List.mem_cons_of_mem e hf, hfk⟩
    · rcases hn.eq_or_lt with rfl | hn
      · exact ⟨e, List.mem_cons_self, heq⟩
      · obtain ⟨f, hf, hfk⟩ := ih hn hk
        exact ⟨f, List.mem_cons_of_mem e hf, hfk⟩
    · exact absurd hk (not_lt.mpr hn)

/-- What is before `n` does not matter. -/
theorem firstMissing_filter {n k : ℕ} {l : List (ℕ × α)} (hk : k ≤ n) :
    firstMissing n (l.filter fun e => k ≤ e.1) = firstMissing n l := by
  induction l generalizing n with
  | nil => rfl
  | cons e rest ih =>
    rw [List.filter_cons]
    split_ifs with hle
    · rw [firstMissing_cons, firstMissing_cons, ih hk, ih (hk.trans (Nat.le_succ n))]
    · rw [decide_eq_true_iff, not_le] at hle
      rw [firstMissing_cons, if_pos (hle.trans_le hk), ih hk]

/-! ## Parts of sorted lists -/

/-- The next number to wait for is the one that is not there, after those that are. -/
theorem firstMissing_eq {n k : ℕ} {m : OrdMap ℕ α} (hn : n ≤ k) (hall : ∀ j, n ≤ j → j < k → m.find? j ≠ none)
    (hk : m.find? k = none) : firstMissing n m.toList = k := by
  rcases lt_trichotomy (firstMissing n m.toList) k with hlt | heq | hlt
  · obtain ⟨v, hv⟩ := Option.ne_none_iff_exists'.mp (hall _ (le_firstMissing n _) hlt)
    exact absurd rfl (firstMissing_notMem m.sorted _ (m.mem_toList.mpr hv))
  · exact heq
  · obtain ⟨e, he, hek⟩ := exists_mem_of_lt_firstMissing hn hlt
    have hfind : m.find? k = some e.2 := m.mem_toList.mp (hek ▸ he)
    rw [hk] at hfind
    exact absurd hfind (by simp)

theorem find?_firstMissing (n : ℕ) (m : OrdMap ℕ α) : m.find? (firstMissing n m.toList) = none := by
  by_contra hne
  obtain ⟨v, hv⟩ := Option.ne_none_iff_exists'.mp hne
  exact firstMissing_notMem m.sorted _ (m.mem_toList.mpr hv) rfl

theorem find?_of_lt_firstMissing {n k : ℕ} {m : OrdMap ℕ α} (hn : n ≤ k) (hk : k < firstMissing n m.toList) :
    m.find? k ≠ none := by
  obtain ⟨e, he, hek⟩ := exists_mem_of_lt_firstMissing hn hk
  have hfind : m.find? k = some e.2 := m.mem_toList.mp (hek ▸ he)
  rw [hfind]
  exact Option.some_ne_none _

theorem firstMissing_of_none {n : ℕ} {m : OrdMap ℕ α} (h : m.find? n = none) : firstMissing n m.toList = n :=
  firstMissing_eq le_rfl (fun _ hj hj' => absurd hj (Nat.not_le.mpr hj')) h

theorem firstMissing_of_some {n : ℕ} {m : OrdMap ℕ α} (h : m.find? n ≠ none) :
    firstMissing n m.toList = firstMissing (n + 1) m.toList := by
  refine firstMissing_eq ((Nat.le_succ n).trans (le_firstMissing _ _)) ?_ (find?_firstMissing _ m)
  intro j hj hj'
  rcases hj.eq_or_lt with rfl | hlt
  · exact h
  · exact find?_of_lt_firstMissing hlt hj'

theorem sortedL_ext {l l' : List (ℕ × α)} (h : SortedL l) (h' : SortedL l') (hmem : ∀ p, p ∈ l ↔ p ∈ l') : l = l' := by
  have : Std.Irrefl fun a b : ℕ × α => a.1 < b.1 := ⟨fun a => lt_irrefl a.1⟩
  have : Std.Antisymm fun a b : ℕ × α => a.1 < b.1 := ⟨fun _ _ hab hba => absurd hab (lt_asymm hba)⟩
  exact List.Pairwise.eq_of_mem_iff h h' hmem

theorem mem_insertL_iff {k : ℕ} {v : α} {l : List (ℕ × α)} (h : SortedL l) (hk : lookupL k l = none) (p : ℕ × α) :
    p ∈ insertL k v l ↔ p = (k, v) ∨ p ∈ l := by
  obtain ⟨k', v'⟩ := p
  rw [mem_iff_lookupL h.insertL, mem_iff_lookupL h, lookupL_insertL, Prod.mk.injEq]
  split_ifs with heq
  · rw [← heq, hk]
    simp [eq_comm]
  · simp [Ne.symm heq]

theorem lookupL_filter_le {k n : ℕ} {l : List (ℕ × α)} (hn : n ≤ k) :
    lookupL k (l.filter fun e => n ≤ e.1) = lookupL k l := by
  induction l with
  | nil => rfl
  | cons e rest ih =>
    obtain ⟨a, w⟩ := e
    rw [List.filter_cons]
    split_ifs with hle
    · rw [lookupL, lookupL, ih]
    · rw [decide_eq_true_iff, not_le] at hle
      rw [lookupL, if_neg (hle.trans_le hn).ne, ih]

theorem filter_le_insertL {k n : ℕ} {v : α} {l : List (ℕ × α)} (h : SortedL l) (hl : lookupL k l = none) (hk : n ≤ k) :
    (insertL k v l).filter (fun e => n ≤ e.1) = insertL k v (l.filter fun e => n ≤ e.1) := by
  refine sortedL_ext (h.insertL.filter _) (SortedL.insertL (h.filter _)) fun p => ?_
  rw [List.mem_filter, mem_insertL_iff h hl, mem_insertL_iff (h.filter _) (by rw [lookupL_filter_le hk, hl]), List.mem_filter,
    decide_eq_true_iff]
  constructor
  · rintro ⟨rfl | hp, hle⟩
    · exact .inl rfl
    · exact .inr ⟨hp, hle⟩
  · rintro (rfl | ⟨hp, hle⟩)
    · exact ⟨.inl rfl, hk⟩
    · exact ⟨.inr hp, hle⟩

theorem filter_lt_insertL {k n : ℕ} {v : α} {l : List (ℕ × α)} (h : SortedL l) (hl : lookupL k l = none) (hk : n ≤ k) :
    (insertL k v l).filter (fun e => e.1 < n) = l.filter fun e => e.1 < n := by
  refine sortedL_ext (h.insertL.filter _) (h.filter _) fun p => ?_
  rw [List.mem_filter, mem_insertL_iff h hl, List.mem_filter, decide_eq_true_iff]
  constructor
  · rintro ⟨rfl | hp, hlt⟩
    · exact absurd hlt (not_lt.mpr hk)
    · exact ⟨hp, hlt⟩
  · rintro ⟨hp, hlt⟩
    exact ⟨.inr hp, hlt⟩

theorem filter_lt_append {n k : ℕ} {l : List (ℕ × α)} (h : SortedL l) (hnk : n ≤ k) :
    (l.filter fun e => e.1 < n) ++ ((l.filter fun e => n ≤ e.1).filter fun e => e.1 < k) = l.filter fun e => e.1 < k := by
  refine sortedL_ext (List.pairwise_append.mpr ⟨h.filter _, (h.filter _).filter _, fun a ha b hb => ?_⟩) (h.filter _)
    fun p => ?_
  · rw [List.mem_filter, decide_eq_true_iff] at ha
    rw [List.mem_filter, List.mem_filter, decide_eq_true_iff] at hb
    exact ha.2.trans_le hb.1.2
  · simp only [List.mem_append, List.mem_filter, decide_eq_true_iff]
    constructor
    · rintro (⟨hp, hlt⟩ | ⟨⟨hp, -⟩, hlt⟩)
      · exact ⟨hp, hlt.trans_le hnk⟩
      · exact ⟨hp, hlt⟩
    · rintro ⟨hp, hlt⟩
      rcases lt_or_ge p.1 n with hn | hn
      · exact .inl ⟨hp, hn⟩
      · exact .inr ⟨⟨hp, hn⟩, hlt⟩

theorem filter_le_filter_le {n k : ℕ} (l : List (ℕ × α)) (hnk : n ≤ k) :
    (l.filter fun e => n ≤ e.1).filter (fun e => k ≤ e.1) = l.filter fun e => k ≤ e.1 := by
  rw [List.filter_filter]
  refine List.filter_congr fun e _ => ?_
  by_cases h : k ≤ e.1
  · simp [h, hnk.trans h]
  · simp [h]

/-! ## Reordering -/

/-- Items by their numbers, the first one of each, and the next number to wait for. -/
structure Reorder (α : Type) where
  start : ℕ
  received : OrdMap ℕ α := .empty

namespace Reorder

variable (r : Reorder α)

/-- What was passed on. -/
def delivered : List (ℕ × α) := r.received.toList.filter fun e => e.1 < r.start

/-- What waits for a number before it. -/
def held : List (ℕ × α) := r.received.toList.filter fun e => r.start ≤ e.1

def advanceTo (start : ℕ) : Reorder α := { r with start := firstMissing start r.received.toList }

/-- An item that is not too late, with room for `size` numbers. -/
def receive (size a : ℕ) (m : α) : Reorder α :=
  advanceTo { r with received := r.received.insertNew a m } (max r.start (a + 1 - size))

variable {r}

theorem sorted_held (r : Reorder α) : SortedL r.held := r.received.sorted.filter _

theorem sorted_delivered (r : Reorder α) : SortedL r.delivered := r.received.sorted.filter _

theorem delivered_advanceTo {n : ℕ} (hn : r.start ≤ n) :
    (r.advanceTo n).delivered =
      r.delivered ++ r.held.filter fun e => e.1 < firstMissing n r.received.toList :=
  (filter_lt_append r.received.sorted (hn.trans (le_firstMissing _ _))).symm

theorem held_advanceTo {n : ℕ} (hn : r.start ≤ n) :
    (r.advanceTo n).held = r.held.filter fun e => firstMissing n r.received.toList ≤ e.1 :=
  (filter_le_filter_le _ (hn.trans (le_firstMissing _ _))).symm

/-- **What was passed on stays the beginning** of what is passed on. -/
theorem delivered_prefix_advanceTo {n : ℕ} (hn : r.start ≤ n) : r.delivered <+: (r.advanceTo n).delivered :=
  ⟨_, (delivered_advanceTo hn).symm⟩

theorem toList_insertNew (m : OrdMap ℕ α) (a : ℕ) (v : α) :
    (m.insertNew a v).toList = if lookupL a m.toList = none then insertL a v m.toList else m.toList := by
  rw [OrdMap.insertNew, OrdMap.find?]
  cases lookupL a m.toList with
  | none => rfl
  | some w => rfl

theorem held_insertNew {a : ℕ} (ha : r.start ≤ a) (v : α) :
    held { r with received := r.received.insertNew a v } =
      if lookupL a r.held = none then insertL a v r.held else r.held := by
  rw [held, held, toList_insertNew, lookupL_filter_le ha]
  split_ifs with hnone
  · exact filter_le_insertL r.received.sorted hnone ha
  · rfl

theorem delivered_insertNew {a : ℕ} (ha : r.start ≤ a) (v : α) :
    delivered { r with received := r.received.insertNew a v } = r.delivered := by
  rw [delivered, delivered, toList_insertNew]
  split_ifs with hnone
  · exact filter_lt_insertL r.received.sorted hnone ha
  · rfl

theorem mem_insertNew {m : OrdMap ℕ α} {a : ℕ} {v : α} {p : ℕ × α} (h : p ∈ (m.insertNew a v).toList) :
    p.1 = a ∨ p ∈ m.toList := by
  rw [toList_insertNew] at h
  split_ifs at h
  · exact (mem_insertL h).imp_left fun hp => by rw [hp]
  · exact .inr h

theorem find?_insertNew_of_some {m : OrdMap ℕ α} {a k : ℕ} {v w : α} (h : m.find? k = some w) :
    (m.insertNew a v).find? k = some w := by
  rw [OrdMap.find?_insertNew, h, Option.some_or]

theorem find?_insertNew_self (m : OrdMap ℕ α) (a : ℕ) (v : α) : ∃ w, (m.insertNew a v).find? a = some w := by
  rw [OrdMap.find?_insertNew, if_pos rfl]
  cases m.find? a with
  | none => exact ⟨v, rfl⟩
  | some w => exact ⟨w, rfl⟩

end Reorder

end ReorderLib
