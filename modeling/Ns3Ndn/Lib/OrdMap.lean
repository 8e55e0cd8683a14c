import Mathlib

/-!
# Ordered finite maps

A finite map over a linear order, kept as its list of bindings in strictly increasing key order.
This is the value of a balanced search tree as its clients see it: lookup, insertion, removal,
and iteration from the least key to the greatest.
-/

namespace OrdLib

variable {κ ν : Type} [LinearOrder κ]

/-! ## Binding lists -/

/-- The value bound to `k`. -/
def lookupL (k : κ) : List (κ × ν) → Option ν
  | [] => none
  | (a, v) :: l => if a = k then some v else lookupL k l

/-- Insert a binding at its place, replacing one with the same key. -/
def insertL (k : κ) (v : ν) : List (κ × ν) → List (κ × ν)
  | [] => [(k, v)]
  | (a, w) :: l =>
    if k < a then (k, v) :: (a, w) :: l
    else if a = k then (k, v) :: l
    else (a, w) :: insertL k v l

theorem lookupL_cons (k a : κ) (v : ν) (l : List (κ × ν)) :
    lookupL k ((a, v) :: l) = if a = k then some v else lookupL k l := rfl

theorem insertL_cons (k a : κ) (v w : ν) (l : List (κ × ν)) :
    insertL k v ((a, w) :: l) =
      if k < a then (k, v) :: (a, w) :: l else if a = k then (k, v) :: l else (a, w) :: insertL k v l := rfl

theorem lookupL_insertL (k k' : κ) (v : ν) (l : List (κ × ν)) :
    lookupL k' (insertL k v l) = if k = k' then some v else lookupL k' l := by
  induction l with
  | nil => rfl
  | cons p l ih =>
    obtain ⟨a, w⟩ := p
    by_cases h1 : k < a
    · simp only [insertL_cons, if_pos h1, lookupL_cons]
    · by_cases h2 : a = k
      · subst h2
        simp only [insertL_cons, lt_irrefl, if_false, if_true, lookupL_cons]
        split_ifs <;> rfl
      · simp only [insertL_cons, if_neg h1, if_neg h2, lookupL_cons, ih]
        by_cases h3 : k = k'
        · subst h3
          rw [if_neg h2, if_pos rfl, if_pos rfl]
        · rw [if_neg h3, if_neg h3]

theorem mem_insertL {k : κ} {v : ν} {l : List (κ × ν)} {p : κ × ν} (h : p ∈ insertL k v l) :
    p = (k, v) ∨ p ∈ l := by
  induction l with
  | nil => exact Or.inl (List.mem_singleton.mp h)
  | cons q l ih =>
    obtain ⟨a, w⟩ := q
    simp only [insertL_cons] at h
    split_ifs at h
    · exact (List.mem_cons.mp h)
    · exact (List.mem_cons.mp h).imp_right (List.mem_cons_of_mem _)
    · rcases List.mem_cons.mp h with h | h
      · exact Or.inr (h ▸ List.mem_cons_self)
      · exact (ih h).imp_right (List.mem_cons_of_mem _)

/-- Keys strictly increase. -/
def SortedL (l : List (κ × ν)) : Prop := l.Pairwise fun a b => a.1 < b.1

theorem SortedL.insertL {k : κ} {v : ν} {l : List (κ × ν)} (h : SortedL l) :
    SortedL (insertL k v l) := by
  induction l with
  | nil => exact List.pairwise_singleton _ _
  | cons p l ih =>
    obtain ⟨a, w⟩ := p
    obtain ⟨hp, hl⟩ := List.pairwise_cons.mp h
    simp only [insertL_cons]
    split_ifs with h1 h2
    · refine List.pairwise_cons.mpr ⟨fun q hq => ?_, h⟩
      rcases List.mem_cons.mp hq with rfl | hq
      · exact h1
      · exact lt_trans h1 (hp q hq)
    · subst h2
      exact List.pairwise_cons.mpr ⟨hp, hl⟩
    · refine List.pairwise_cons.mpr ⟨fun q hq => ?_, ih hl⟩
      rcases mem_insertL hq with rfl | hq
      · exact lt_of_le_of_ne (not_lt.mp h1) h2
      · exact hp q hq

theorem lookupL_eq_none {k : κ} {l : List (κ × ν)} (h : ∀ p ∈ l, p.1 ≠ k) : lookupL k l = none := by
  induction l with
  | nil => rfl
  | cons p l ih =>
    rw [lookupL_cons, if_neg (h p List.mem_cons_self)]
    exact ih fun q hq => h q (List.mem_cons_of_mem _ hq)

theorem mem_iff_lookupL {k : κ} {v : ν} {l : List (κ × ν)} (h : SortedL l) :
    (k, v) ∈ l ↔ lookupL k l = some v := by
  induction l with
  | nil => simp [lookupL]
  | cons p l ih =>
    obtain ⟨a, w⟩ := p
    obtain ⟨hp, hl⟩ := List.pairwise_cons.mp h
    simp only [lookupL_cons, List.mem_cons, Prod.mk.injEq]
    split_ifs with h1
    · subst h1
      constructor
      · rintro (⟨-, rfl⟩ | hm)
        · rfl
        · exact absurd (hp _ hm) (lt_irrefl a)
      · intro hw
        exact Or.inl ⟨rfl, (Option.some.inj hw).symm⟩
    · rw [← ih hl]
      exact ⟨fun hm => hm.resolve_left fun hk => h1 hk.1.symm, Or.inr⟩

/-! ## Maps -/

/-- **A finite map**: bindings in strictly increasing key order. -/
structure OrdMap (κ ν : Type) [LinearOrder κ] where
  toList : List (κ × ν)
  sorted : SortedL toList

namespace OrdMap

variable (m : OrdMap κ ν)

def empty : OrdMap κ ν := ⟨[], List.Pairwise.nil⟩

instance : Inhabited (OrdMap κ ν) := ⟨empty⟩

/-- The value at `k`. -/
def find? (k : κ) : Option ν := lookupL k m.toList

/-- Bind `k` to `v`, replacing an earlier binding. -/
def insert (k : κ) (v : ν) : OrdMap κ ν := ⟨insertL k v m.toList, m.sorted.insertL⟩

/-- Bind `k` to `v` unless `k` is bound already. -/
def insertNew (k : κ) (v : ν) : OrdMap κ ν :=
  match m.find? k with
  | some _ => m
  | none => m.insert k v

/-- Bind the keys of a list, one after the other, unless they are bound already. -/
def insertAll (l : List (κ × ν)) : OrdMap κ ν := l.foldl (fun m p => m.insertNew p.1 p.2) m

/-- Change the value at `k`, if there is one. -/
def modify (k : κ) (f : ν → ν) : OrdMap κ ν :=
  match m.find? k with
  | some v => m.insert k (f v)
  | none => m

/-- Remove the binding of `k`. -/
def erase (k : κ) : OrdMap κ ν := ⟨m.toList.filter fun p => p.1 ≠ k, m.sorted.filter _⟩

/-- Keep the bindings of the keys that satisfy `q`. -/
def filter (q : κ → Bool) : OrdMap κ ν := ⟨m.toList.filter fun p => q p.1, m.sorted.filter _⟩

/-- Change the values, or drop them. -/
def filterMap {μ : Type} (f : κ → ν → Option μ) : OrdMap κ μ where
  toList := m.toList.filterMap fun p => (f p.1 p.2).map fun v => (p.1, v)
  sorted := by
    refine List.pairwise_filterMap.mpr (m.sorted.imp ?_)
    rintro p q h _ hp _ hq
    obtain ⟨v, -, rfl⟩ := Option.map_eq_some_iff.mp hp
    obtain ⟨w, -, rfl⟩ := Option.map_eq_some_iff.mp hq
    exact h

/-- The bindings after `k`, in key order. -/
def after (k : κ) : List (κ × ν) := m.toList.dropWhile fun p => p.1 ≤ k

@[simp] theorem find?_empty (k : κ) : (empty : OrdMap κ ν).find? k = none := rfl

theorem mem_toList {k : κ} {v : ν} : (k, v) ∈ m.toList ↔ m.find? k = some v :=
  mem_iff_lookupL m.sorted

theorem ext_find? {m m' : OrdMap κ ν} (h : ∀ k, m.find? k = m'.find? k) : m = m' := by
  have hperm : m.toList.Perm m'.toList := by
    refine (List.perm_ext_iff_of_nodup (m.sorted.imp fun hlt e => absurd (congrArg Prod.fst e) (ne_of_lt hlt))
      (m'.sorted.imp fun hlt e => absurd (congrArg Prod.fst e) (ne_of_lt hlt))).mpr fun p => ?_
    rw [mem_toList, mem_toList, h]
  have heq : m.toList = m'.toList :=
    hperm.eq_of_pairwise (fun a b _ _ hab hba => absurd hab (lt_asymm hba)) m.sorted m'.sorted
  obtain ⟨l, hl⟩ := m
  obtain ⟨l', hl'⟩ := m'
  cases heq
  rfl

theorem find?_insert (k k' : κ) (v : ν) :
    (m.insert k v).find? k' = if k = k' then some v else m.find? k' :=
  lookupL_insertL k k' v m.toList

@[simp] theorem find?_insert_self (k : κ) (v : ν) : (m.insert k v).find? k = some v := by
  rw [find?_insert, if_pos rfl]

theorem find?_insert_of_ne {k k' : κ} (h : k ≠ k') (v : ν) :
    (m.insert k v).find? k' = m.find? k' := by
  rw [find?_insert, if_neg h]

theorem find?_insertNew (k k' : κ) (v : ν) :
    (m.insertNew k v).find? k' = (m.find? k').or (if k = k' then some v else none) := by
  unfold insertNew
  cases h : m.find? k with
  | some w =>
    by_cases hk : k = k'
    · subst hk
      simp [h]
    · simp [hk]
  | none =>
    rw [find?_insert]
    by_cases hk : k = k'
    · subst hk
      simp [h]
    · simp [hk]

theorem find?_insertAll (l : List (κ × ν)) (k : κ) : (m.insertAll l).find? k = (m.find? k).or (lookupL k l) := by
  induction l generalizing m with
  | nil => exact (Option.or_none).symm
  | cons p l ih =>
    obtain ⟨a, v⟩ := p
    show ((m.insertNew a v).insertAll l).find? k = _
    rw [ih, find?_insertNew, Option.or_assoc, lookupL_cons]
    split_ifs <;> rfl

@[simp] theorem insertAll_toList : (empty : OrdMap κ ν).insertAll m.toList = m := by
  refine ext_find? fun k => ?_
  rw [find?_insertAll, find?_empty, Option.none_or, find?]

theorem find?_modify (k k' : κ) (f : ν → ν) :
    (m.modify k f).find? k' = if k = k' then (m.find? k').map f else m.find? k' := by
  unfold modify
  cases h : m.find? k with
  | some v =>
    rw [find?_insert]
    by_cases hk : k = k'
    · subst hk
      simp [h]
    · simp [hk]
  | none =>
    by_cases hk : k = k'
    · subst hk
      simp [h]
    · simp [hk]

theorem find?_filter (q : κ → Bool) (k : κ) :
    (m.filter q).find? k = if q k then m.find? k else none := by
  ext v
  rw [← mem_toList, filter, List.mem_filter, mem_toList]
  by_cases hq : q k <;> simp [hq]

theorem find?_filterMap {μ : Type} (f : κ → ν → Option μ) (k : κ) :
    (m.filterMap f).find? k = (m.find? k).bind (f k) := by
  ext v
  rw [← mem_toList, filterMap, List.mem_filterMap, Option.bind_eq_some_iff]
  constructor
  · rintro ⟨⟨a, w⟩, hp, hv⟩
    obtain ⟨v', hv', heq⟩ := Option.map_eq_some_iff.mp hv
    obtain ⟨rfl, rfl⟩ := Prod.mk.inj heq
    exact ⟨w, (m.mem_toList).mp hp, hv'⟩
  · rintro ⟨w, hw, hv⟩
    exact ⟨(k, w), (m.mem_toList).mpr hw, by rw [hv, Option.map_some]⟩

theorem find?_erase (k k' : κ) : (m.erase k).find? k' = if k = k' then none else m.find? k' := by
  by_cases hk : k = k'
  · subst hk
    rw [if_pos rfl]
    exact lookupL_eq_none fun p hp => by simpa using (List.mem_filter.mp hp).2
  · rw [if_neg hk]
    refine Option.ext fun v => ?_
    rw [← mem_toList, ← mem_toList]
    simp only [erase, List.mem_filter, decide_eq_true_eq, ne_eq]
    exact ⟨fun h => h.1, fun h => ⟨h, fun e => hk e.symm⟩⟩

@[simp] theorem find?_erase_self (k : κ) : (m.erase k).find? k = none := by
  rw [find?_erase, if_pos rfl]

theorem find?_erase_of_ne {k k' : κ} (h : k ≠ k') : (m.erase k).find? k' = m.find? k' := by
  rw [find?_erase, if_neg h]

theorem toList_erase_head {p : κ × ν} {l : List (κ × ν)} (h : m.toList = p :: l) : (m.erase p.1).toList = l := by
  have hsorted := m.sorted
  rw [h] at hsorted
  obtain ⟨hp, -⟩ := List.pairwise_cons.mp hsorted
  show m.toList.filter (fun q => q.1 ≠ p.1) = l
  rw [h, List.filter_cons_of_neg (by simp), List.filter_eq_self]
  intro q hq
  simpa using (ne_of_lt (hp q hq)).symm

theorem nodup_keys : (m.toList.map Prod.fst).Nodup := by
  refine List.pairwise_map.mpr (m.sorted.imp fun h => ne_of_lt h)

theorem nodup_toList : m.toList.Nodup := List.Nodup.of_map Prod.fst m.nodup_keys

theorem insert_perm {k : κ} (h : m.find? k = none) (v : ν) :
    (m.insert k v).toList.Perm ((k, v) :: m.toList) := by
  refine (List.perm_ext_iff_of_nodup (nodup_toList _) (List.nodup_cons.mpr ⟨fun hm => ?_,
    m.nodup_toList⟩)).mpr fun b => ?_
  · rw [mem_toList, h] at hm
    cases hm
  · obtain ⟨k', v'⟩ := b
    rw [List.mem_cons, mem_toList, mem_toList, find?_insert, Prod.mk.injEq]
    by_cases hk : k = k'
    · subst hk
      simp [h, eq_comm]
    · simp [hk, Ne.symm hk]

theorem insertNew_of_some {k : κ} {w : ν} (h : m.find? k = some w) (v : ν) : m.insertNew k v = m := by
  rw [insertNew, h]

theorem length_insertNew_of_none {k : κ} (h : m.find? k = none) (v : ν) :
    (m.insertNew k v).toList.length = m.toList.length + 1 := by
  rw [insertNew, h]
  exact (m.insert_perm h v).length_eq

theorem length_le_length_insertAll (l : List (κ × ν)) : m.toList.length ≤ (m.insertAll l).toList.length := by
  induction l generalizing m with
  | nil => exact le_rfl
  | cons p l ih =>
    refine le_trans ?_ (ih (m.insertNew p.1 p.2))
    cases h : m.find? p.1 with
    | some w => rw [m.insertNew_of_some h]
    | none =>
      rw [m.length_insertNew_of_none h]
      exact Nat.le_succ _

theorem erase_perm {k : κ} {v : ν} (h : m.find? k = some v) :
    m.toList.Perm ((k, v) :: (m.erase k).toList) := by
  refine (List.perm_ext_iff_of_nodup m.nodup_toList (List.nodup_cons.mpr ⟨fun hm => ?_,
    nodup_toList _⟩)).mpr fun b => ?_
  · rw [mem_toList, find?_erase_self] at hm
    cases hm
  · obtain ⟨k', v'⟩ := b
    rw [List.mem_cons, mem_toList, mem_toList, find?_erase, Prod.mk.injEq]
    by_cases hk : k = k'
    · subst hk
      simp [h, eq_comm]
    · simp [hk, Ne.symm hk]

theorem mem_after {k : κ} {p : κ × ν} : p ∈ m.after k ↔ p ∈ m.toList ∧ k < p.1 := by
  obtain ⟨l, hl⟩ := m
  simp only [after]
  induction l with
  | nil => simp
  | cons q l ih =>
    obtain ⟨hq, hl'⟩ := List.pairwise_cons.mp hl
    rw [List.dropWhile_cons]
    split_ifs with h
    · have hqk : q.1 ≤ k := by simpa using h
      rw [ih hl', List.mem_cons]
      refine ⟨fun hp => ⟨Or.inr hp.1, hp.2⟩, fun hp => ⟨hp.1.resolve_left ?_, hp.2⟩⟩
      rintro rfl
      exact absurd hp.2 (not_lt.mpr hqk)
    · have hqk : k < q.1 := by simpa using h
      refine ⟨fun hp => ⟨hp, ?_⟩, fun hp => hp.1⟩
      rcases List.mem_cons.mp hp with rfl | hp
      · exact hqk
      · exact lt_trans hqk (hq p hp)

theorem sorted_after (k : κ) : SortedL (m.after k) :=
  m.sorted.sublist (List.dropWhile_sublist _)

end OrdMap

end OrdLib
