import Ns3Ndn.Lib.OrdMap

/-!
# Windows on a circle

Numbers are handed out in order on a circle of `M` numbers, and a map keeps some of them by plain
numeric order. `behind M last k` is how far `k` lies behind the number handed out last. Walking the
map upwards, and from its end back to its beginning, goes through the window from the oldest
number to the newest.

* **`OrdMap.nextCircular_spec`**: one step of the walk goes to the next younger number.
-/

namespace OrdLib

/-! ## The distance -/

/-- How far `k` lies behind `last` on the circle of `M` numbers. -/
@[irreducible] def behind (M last k : ℕ) : ℕ := (last + M - k) % M

section Distance

variable {M last j k : ℕ}

theorem behind_eq (hlast : last < M) (hk : k < M) :
    behind M last k = if k ≤ last then last - k else last + M - k := by
  unfold behind
  split_ifs with h
  · rw [show last + M - k = last - k + M by omega, Nat.add_mod_right, Nat.mod_eq_of_lt (by omega)]
  · exact Nat.mod_eq_of_lt (by omega)

theorem behind_lt_iff (hlast : last < M) (hj : j < M) (hk : k < M) :
    behind M last j < behind M last k ↔ if k ≤ last then j ≤ last ∧ k < j else j ≤ last ∨ k < j := by
  rw [behind_eq hlast hj, behind_eq hlast hk]
  split_ifs <;> omega

theorem behind_self (hlast : last < M) : behind M last last = 0 := by
  rw [behind_eq hlast hlast, if_pos le_rfl, Nat.sub_self]

theorem behind_inj (hlast : last < M) (hj : j < M) (hk : k < M)
    (h : behind M last j = behind M last k) : j = k := by
  rw [behind_eq hlast hj, behind_eq hlast hk] at h
  split_ifs at h <;> omega

theorem behind_succ (hlast : last < M) (hk : k < M) (hne : k ≠ (last + 1) % M) :
    behind M ((last + 1) % M) k = behind M last k + 1 := by
  by_cases hM : last + 1 = M
  · have hzero : (last + 1) % M = 0 := by rw [hM, Nat.mod_self]
    rw [hzero] at hne ⊢
    rw [behind_eq hlast hk, behind_eq (by omega) hk]
    split_ifs <;> omega
  · have hlt : last + 1 < M := by omega
    rw [Nat.mod_eq_of_lt hlt] at hne ⊢
    rw [behind_eq hlast hk, behind_eq hlt hk]
    split_ifs <;> omega

end Distance

/-! ## Positions in a map -/

namespace OrdMap

section Positions

variable {κ ν : Type} [LinearOrder κ] (m : OrdMap κ ν)

/-- The key is bound. -/
def Has (k : κ) : Prop := ∃ v, m.find? k = some v

/-- The least key. -/
def begin? : Option κ := m.toList.head?.map Prod.fst

/-- The least key above `k`. -/
def next? (k : κ) : Option κ := (m.after k).head?.map Prod.fst

/-- The step of an iterator that goes from the end of the map back to its beginning. -/
def nextCircular (k : κ) : Option κ := (m.next? k).or m.begin?

variable {m} {k k' : κ}

theorem has_iff : m.Has k ↔ ∃ b ∈ m.toList, b.1 = k := by
  constructor
  · rintro ⟨v, hv⟩
    exact ⟨(k, v), m.mem_toList.mpr hv, rfl⟩
  · rintro ⟨⟨k', v⟩, hb, rfl⟩
    exact ⟨v, m.mem_toList.mp hb⟩

theorem not_has_iff : ¬ m.Has k ↔ m.find? k = none := by
  rw [Has, not_exists, Option.eq_none_iff_forall_ne_some]

theorem begin?_eq_none : m.begin? = none ↔ ∀ k, ¬ m.Has k := by
  rw [begin?, Option.map_eq_none_iff, List.head?_eq_none_iff]
  constructor
  · intro h k hk
    obtain ⟨b, hb, -⟩ := has_iff.mp hk
    rw [h] at hb
    cases hb
  · intro h
    refine List.eq_nil_iff_forall_not_mem.mpr fun b hb => h b.1 (has_iff.mpr ⟨b, hb, rfl⟩)

theorem begin?_eq_some (h : m.begin? = some k) : m.Has k ∧ ∀ j, m.Has j → k ≤ j := by
  obtain ⟨⟨k', v⟩, hb, rfl⟩ := Option.map_eq_some_iff.mp h
  obtain ⟨l, hl⟩ := List.head?_eq_some_iff.mp hb
  refine ⟨has_iff.mpr ⟨(k', v), by rw [hl]; exact List.mem_cons_self, rfl⟩, fun j hj => ?_⟩
  obtain ⟨b, hb, rfl⟩ := has_iff.mp hj
  have hsorted := m.sorted
  rw [hl] at hb hsorted
  rcases List.mem_cons.mp hb with rfl | hb
  · exact le_rfl
  · exact ((List.pairwise_cons.mp hsorted).1 b hb).le

theorem length_eq_one_iff : m.toList.length = 1 ↔ ∃ k, m.Has k ∧ ∀ j, m.Has j → j = k := by
  constructor
  · intro h
    obtain ⟨b, hb⟩ := List.length_eq_one_iff.mp h
    simp only [has_iff, hb, List.mem_singleton, exists_eq_left]
    exact ⟨b.1, rfl, fun j hj => hj.symm⟩
  · rintro ⟨k, hk, hall⟩
    have hsorted := m.sorted
    rw [has_iff] at hk
    simp only [has_iff] at hall
    cases hl : m.toList with
    | nil =>
      rw [hl] at hk
      obtain ⟨b, hb, -⟩ := hk
      cases hb
    | cons a l =>
      cases l with
      | nil => rfl
      | cons b l =>
        rw [hl] at hsorted hall
        have ha := hall a.1 ⟨a, List.mem_cons_self, rfl⟩
        have hb := hall b.1 ⟨b, List.mem_cons_of_mem _ List.mem_cons_self, rfl⟩
        exact absurd ((List.pairwise_cons.mp hsorted).1 b List.mem_cons_self)
          (by rw [ha, hb]; exact lt_irrefl k)

theorem next?_eq_none (h : m.next? k = none) {j : κ} (hj : m.Has j) : j ≤ k := by
  rw [next?, Option.map_eq_none_iff, List.head?_eq_none_iff] at h
  obtain ⟨b, hb, rfl⟩ := has_iff.mp hj
  by_contra hlt
  have hmem : b ∈ m.after k := m.mem_after.mpr ⟨hb, not_le.mp hlt⟩
  rw [h] at hmem
  cases hmem

theorem next?_eq_some (h : m.next? k = some k') :
    m.Has k' ∧ k < k' ∧ ∀ j, m.Has j → k < j → k' ≤ j := by
  obtain ⟨⟨k', v⟩, hb, rfl⟩ := Option.map_eq_some_iff.mp h
  obtain ⟨l, hl⟩ := List.head?_eq_some_iff.mp hb
  have hmem : (k', v) ∈ m.after k := by rw [hl]; exact List.mem_cons_self
  obtain ⟨hmem, hlt⟩ := m.mem_after.mp hmem
  refine ⟨has_iff.mpr ⟨_, hmem, rfl⟩, hlt, fun j hj hkj => ?_⟩
  obtain ⟨b, hb, rfl⟩ := has_iff.mp hj
  have hsorted := m.sorted_after k
  have hb' := m.mem_after.mpr ⟨hb, hkj⟩
  rw [hl] at hb' hsorted
  rcases List.mem_cons.mp hb' with rfl | hb'
  · exact le_rfl
  · exact ((List.pairwise_cons.mp hsorted).1 b hb').le

end Positions

/-- **One step of the walk goes to the next younger number of the map**, wherever it starts. -/
theorem nextCircular_spec {ν : Type} {m : OrdMap ℕ ν} {M last k : ℕ} (hlast : last < M)
    (hm : ∀ j, m.Has j → j < M) (hk : k < M)
    (hex : ∃ j, m.Has j ∧ behind M last j < behind M last k) :
    ∃ k', m.nextCircular k = some k' ∧ m.Has k' ∧ behind M last k' < behind M last k ∧
      ∀ j, m.Has j → behind M last j < behind M last k → behind M last j ≤ behind M last k' := by
  obtain ⟨i, hi, hik⟩ := hex
  have hiM := hm i hi
  cases hn : m.next? k with
  | some k' =>
    obtain ⟨hk', hlt, hleast⟩ := next?_eq_some hn
    have hk'M := hm k' hk'
    refine ⟨k', by rw [nextCircular, hn, Option.some_or], hk', ?_, fun j hj hjk => ?_⟩
    · -- an upward step across `last` would leave nothing younger than `k`
      have hi' := hleast i hi
      rw [behind_lt_iff hlast hiM hk] at hik
      rw [behind_lt_iff hlast hk'M hk]
      split_ifs at hik ⊢ <;> omega
    · have hjM := hm j hj
      have hj' := hleast j hj
      rw [behind_lt_iff hlast hjM hk] at hjk
      rw [← not_lt, behind_lt_iff hlast hk'M hjM]
      split_ifs at hjk ⊢ <;> omega
  | none =>
    cases hb : m.begin? with
    | none => exact absurd hi (begin?_eq_none.mp hb i)
    | some k' =>
      obtain ⟨hk', hleast⟩ := begin?_eq_some hb
      have hk'M := hm k' hk'
      have hik' := next?_eq_none hn hi
      have hleast' := hleast i hi
      refine ⟨k', by rw [nextCircular, hn, hb]; rfl, hk', ?_, fun j hj hjk => ?_⟩
      · rw [behind_lt_iff hlast hiM hk] at hik
        rw [behind_lt_iff hlast hk'M hk]
        split_ifs at hik ⊢ <;> omega
      · have hjM := hm j hj
        have hj' := next?_eq_none hn hj
        have hleastj := hleast j hj
        rw [behind_lt_iff hlast hjM hk] at hjk
        rw [← not_lt, behind_lt_iff hlast hk'M hjM]
        split_ifs at hjk ⊢ <;> omega

end OrdMap

end OrdLib
