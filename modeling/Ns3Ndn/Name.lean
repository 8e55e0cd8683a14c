import Mathlib

/-!
# Names

A name is a list of typed components. `Component.compare` and `Name.compare` are the canonical
order of `ndn-cxx/name-component.cpp` and `ndn-cxx/name.cpp`: components compare by type, then
by length, then bytewise; names compare componentwise, and a proper prefix comes first.

* `Name.compare_lt_iff`: `std::map<Name, _>` iterates in the linear order `<` of the model;
* `prefix_of_le_of_le`: the names below a prefix are contiguous in that order.
-/

namespace Ns3Ndn

/-- A name component: its TLV-TYPE and TLV-VALUE. -/
structure Component where
  type : ℕ
  value : List UInt8
deriving DecidableEq

abbrev Name := List Component

namespace Component

def memcmp : List UInt8 → List UInt8 → Ordering
  | a :: l, b :: r => (Ord.compare a.toNat b.toNat).then (memcmp l r)
  | _, _ => .eq

/-- `Component::compare`: type, then size, then value. -/
def compare (a b : Component) : Ordering :=
  (Ord.compare a.type b.type).then
    ((Ord.compare a.value.length b.value.length).then (memcmp a.value b.value))

/-- The triple that `compare` orders lexicographically. -/
def key (c : Component) : ℕ ×ₗ (ℕ ×ₗ List ℕ) :=
  toLex (c.type, toLex (c.value.length, c.value.map UInt8.toNat))

theorem key_injective : Function.Injective key := by
  rintro ⟨t, v⟩ ⟨t', v'⟩ h
  simp only [key, EmbeddingLike.apply_eq_iff_eq, Prod.mk.injEq] at h
  obtain ⟨rfl, -, h⟩ := h
  rw [List.map_injective_iff.mpr (fun a b => UInt8.toNat_inj.mp) h]

instance : LinearOrder Component := LinearOrder.lift' key key_injective

theorem memcmp_lt_iff : ∀ {l r : List UInt8}, l.length = r.length →
    (memcmp l r = .lt ↔ l.map UInt8.toNat < r.map UInt8.toNat)
  | [], [], _ => by simp [memcmp]
  | a :: l, b :: r, h => by
    simp only [memcmp, Ordering.then_eq_lt, compare_lt_iff_lt, compare_eq_iff_eq, List.map_cons,
      List.cons_lt_cons_iff, memcmp_lt_iff (Nat.succ.inj h)]

theorem compare_lt_iff (a b : Component) : compare a b = .lt ↔ a < b := by
  change _ ↔ a.key < b.key
  simp only [compare, key, Ordering.then_eq_lt, compare_lt_iff_lt, compare_eq_iff_eq,
    Prod.Lex.toLex_lt_toLex]
  refine or_congr Iff.rfl (and_congr_right fun _ => or_congr Iff.rfl (and_congr_right fun h => ?_))
  exact memcmp_lt_iff h

theorem memcmp_eq_iff : ∀ {l r : List UInt8}, l.length = r.length → (memcmp l r = .eq ↔ l = r)
  | [], [], _ => by simp [memcmp]
  | a :: l, b :: r, h => by
    simp only [memcmp, Ordering.then_eq_eq, compare_eq_iff_eq, UInt8.toNat_inj,
      memcmp_eq_iff (Nat.succ.inj h), List.cons.injEq]

theorem compare_eq_iff (a b : Component) : compare a b = .eq ↔ a = b := by
  obtain ⟨t, v⟩ := a
  obtain ⟨t', v'⟩ := b
  simp only [compare, Ordering.then_eq_eq, compare_eq_iff_eq, Component.mk.injEq]
  refine and_congr_right fun _ => ⟨fun h => (memcmp_eq_iff h.1).mp h.2, ?_⟩
  rintro rfl
  exact ⟨rfl, (memcmp_eq_iff rfl).mpr rfl⟩

end Component

namespace Name

/-- `Name::compare`: the first differing component decides, else the shorter name comes first. -/
def compare : Name → Name → Ordering
  | [], [] => .eq
  | [], _ :: _ => .lt
  | _ :: _, [] => .gt
  | a :: n, b :: m => (a.compare b).then (compare n m)

/-- **The map order of names is the list order.** -/
theorem compare_lt_iff : ∀ n m : Name, compare n m = .lt ↔ n < m
  | [], [] => by simp [compare]
  | [], _ :: _ => by simp [compare]
  | _ :: _, [] => by simp [compare]
  | a :: n, b :: m => by
    rw [compare, Ordering.then_eq_lt, Component.compare_lt_iff, Component.compare_eq_iff,
      compare_lt_iff n m, List.cons_lt_cons_iff]

end Name

section Prefix

variable {α : Type} [LinearOrder α]

theorem not_lt_of_isPrefix {n m : List α} (h : n <+: m) : ¬ m < n := by
  induction n generalizing m with
  | nil => exact List.not_lt_nil m
  | cons a n ih =>
    obtain ⟨m, rfl⟩ := h
    rw [List.cons_append, List.cons_lt_cons_iff, not_or, not_and]
    exact ⟨lt_irrefl a, fun _ => ih (List.prefix_append n m)⟩

/-- **Everything between a name and one of its extensions is an extension.** -/
theorem prefix_of_le_of_le {n x m : List α} (hm : n <+: m) (h1 : n ≤ x) (h2 : x ≤ m) :
    n <+: x := by
  rw [← not_lt] at h1 h2
  induction n generalizing x m with
  | nil => exact List.nil_prefix
  | cons a n ih =>
    obtain ⟨m, rfl⟩ := hm
    cases x with
    | nil => exact absurd (List.nil_lt_cons a n) h1
    | cons b x =>
      rw [List.cons_lt_cons_iff, not_or, not_and] at h1
      rw [List.cons_append, List.cons_lt_cons_iff, not_or, not_and] at h2
      obtain rfl : a = b := le_antisymm (not_lt.mp h1.1) (not_lt.mp h2.1)
      exact List.cons_prefix_cons.mpr ⟨rfl, ih (List.prefix_append n m) (h1.2 rfl) (h2.2 rfl)⟩

end Prefix

end Ns3Ndn
