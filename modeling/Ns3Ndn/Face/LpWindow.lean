import Ns3Ndn.Lib.Run
import Ns3Ndn.Face.LpReliability

/-!
# The send window

The stored fragments are ordered by the number they carry, but numbers wrap around: the window
starts somewhere in the middle of the map. `m_firstUnackedFrag` always points to the oldest stored
fragment, so the walk of `findLostLpPackets` from there to the acknowledged fragment meets exactly
the fragments that were sent before it.

* `Window`: the invariant of the window, and what each operation on it does;
* **`Window.findLostLpPackets`**: the walk ends and marks exactly the older fragments.
-/

namespace Ns3Ndn.LpReliability

open OrdLib RunLib LpPacket

variable {s t : LpReliability}

def age (s : LpReliability) (txSeq : ℕ) : ℕ := behind (2 ^ 64) s.lastTxSeqNo txSeq

/-- **The window invariant.** -/
structure Window (s : LpReliability) : Prop where
  last_lt : s.lastTxSeqNo < 2 ^ 64
  key_lt : ∀ {k}, s.unackedFrags.Has k → k < 2 ^ 64
  assigned : ∀ {k f}, s.unackedFrags.find? k = some f → f.assigned + s.age k = s.nAssigned
  first_none : s.firstUnackedFrag = none → ∀ k, ¬ s.unackedFrags.Has k
  first_some : ∀ {f}, s.firstUnackedFrag = some f →
    s.unackedFrags.Has f ∧ ∀ k, s.unackedFrags.Has k → s.age k ≤ s.age f

/-- The only way to fail: the window has all the numbers. -/
def Exhausted (e : Fault) : Prop := e = .lengthError (2 ^ 64)

theorem isEmpty_iff {m : OrdMap ℕ UnackedFrag} :
    m.toList.isEmpty = true ↔ ∀ k, ¬ m.Has k := by
  rw [List.isEmpty_iff, ← OrdMap.begin?_eq_none, OrdMap.begin?, Option.map_eq_none_iff,
    List.head?_eq_none_iff]

theorem window_init (last : UInt64) : Window (init last) where
  last_lt := last.toNat_lt
  key_lt h := by
    obtain ⟨f, hf⟩ := h
    cases hf
  assigned h := by cases h
  first_none _ k h := by
    obtain ⟨f, hf⟩ := h
    cases hf
  first_some h := by cases h

theorem Window.first (h : Window s) {k : ℕ} (hk : s.unackedFrags.Has k) :
    ∃ f frag, s.firstUnackedFrag = some f ∧ s.unackedFrags.find? f = some frag := by
  cases hf : s.firstUnackedFrag with
  | none => exact absurd hk (h.first_none hf k)
  | some f =>
    obtain ⟨frag, hfrag⟩ := (h.first_some hf).1
    exact ⟨f, frag, rfl, hfrag⟩

theorem Window.age_inj (h : Window s) {j k : ℕ} (hj : s.unackedFrags.Has j)
    (hk : s.unackedFrags.Has k) (he : s.age j = s.age k) : j = k :=
  behind_inj h.last_lt (h.key_lt hj) (h.key_lt hk) he

/-- Of two stored fragments, the older one was assigned first. -/
theorem Window.assigned_lt_iff (h : Window s) {j k : ℕ} {f g : UnackedFrag}
    (hj : s.unackedFrags.find? j = some f) (hk : s.unackedFrags.find? k = some g) :
    f.assigned < g.assigned ↔ s.age k < s.age j := by
  have h1 := h.assigned hj
  have h2 := h.assigned hk
  omega

theorem Window.advance (h : Window s)
    (hfresh : s.unackedFrags.find? ((s.lastTxSeqNo + 1) % 2 ^ 64) = none) : Window s.advance := by
  have hage : ∀ {k}, s.unackedFrags.Has k → s.advance.age k = s.age k + 1 := fun {k} hk => by
    refine behind_succ h.last_lt (h.key_lt hk) fun hkn => ?_
    exact OrdMap.not_has_iff.mpr hfresh (hkn ▸ hk)
  refine ⟨Nat.mod_lt _ (by norm_num), h.key_lt, fun {k f} hk => ?_, h.first_none, fun {f} hf => ?_⟩
  · have h1 := h.assigned hk
    have h2 := hage ⟨f, hk⟩
    change f.assigned + s.advance.age k = s.nAssigned + 1
    omega
  · obtain ⟨hhas, hmax⟩ := h.first_some hf
    refine ⟨hhas, fun k hk => ?_⟩
    have h1 := hmax k hk
    rw [hage hk, hage hhas]
    omega

/-- **`assignTxSequence` hands out a number that is not in the window**, or the window has all the
numbers. -/
theorem Window.assignTxSequence (h : Window s) :
    Yields Exhausted (fun a => a = (s.advance.lastTxSeqNo, s.advance) ∧
      s.unackedFrags.find? s.advance.lastTxSeqNo = none ∧ Window s.advance) s.assignTxSequence := by
  have hnext : s.advance.lastTxSeqNo = (s.lastTxSeqNo + 1) % 2 ^ 64 := rfl
  unfold LpReliability.assignTxSequence
  by_cases hempty : s.unackedFrags.toList.isEmpty
  · rw [if_pos hempty]
    have hfresh := OrdMap.not_has_iff.mp (isEmpty_iff.mp hempty s.advance.lastTxSeqNo)
    exact ⟨rfl, hfresh, h.advance hfresh⟩
  · rw [if_neg hempty]
    obtain ⟨k, hk⟩ := not_forall_not.mp (fun hx => hempty (isEmpty_iff.mpr hx))
    obtain ⟨f, frag, hf, hfrag⟩ := h.first hk
    obtain ⟨hhas, hmax⟩ := h.first_some hf
    have hlast := h.last_lt
    have hfM := h.key_lt hhas
    simp only [hf, deref, hfrag, Except.bind]
    by_cases he : s.advance.lastTxSeqNo = f
    · rw [if_pos he]
      have hfull : behind (2 ^ 64) s.lastTxSeqNo f + 1 = 2 ^ 64 := by
        rw [behind_eq hlast hfM]
        rw [hnext] at he
        split_ifs <;> omega
      exact congrArg Fault.lengthError hfull
    · rw [if_neg he]
      -- a stored number equal to the next one would be older than the oldest
      have hfresh : s.unackedFrags.find? s.advance.lastTxSeqNo = none := by
        refine OrdMap.not_has_iff.mp fun hx => he ?_
        have h1 := hmax _ hx
        have hxM := h.key_lt hx
        refine h.age_inj hx hhas (le_antisymm h1 ?_)
        rw [age, age, behind_eq hlast hxM, behind_eq hlast hfM]
        rw [hnext] at hxM ⊢
        split_ifs <;> omega
      exact ⟨rfl, hfresh, h.advance hfresh⟩

theorem Window.store (h : Window s) {frag : UnackedFrag} (hfrag : frag.assigned = s.nAssigned)
    (hmap : ∀ k, t.unackedFrags.find? k =
      if s.lastTxSeqNo = k then some frag else s.unackedFrags.find? k)
    (hlast : t.lastTxSeqNo = s.lastTxSeqNo) (hn : t.nAssigned = s.nAssigned)
    (hfirst : t.firstUnackedFrag = s.firstUnackedFrag.or (some s.lastTxSeqNo)) : Window t := by
  have hage : ∀ k, t.age k = s.age k := fun k => by rw [age, age, hlast]
  have hzero : s.age s.lastTxSeqNo = 0 := behind_self h.last_lt
  have hhas : ∀ k, t.unackedFrags.Has k ↔ s.lastTxSeqNo = k ∨ s.unackedFrags.Has k := fun k => by
    rw [OrdMap.Has, OrdMap.Has, hmap]
    by_cases hk : s.lastTxSeqNo = k
    · simp [hk]
    · simp [hk]
  refine ⟨hlast ▸ h.last_lt, fun {k} hk => ?_, fun {k f} hk => ?_, fun hf => ?_, fun {f} hf => ?_⟩
  · rcases (hhas k).mp hk with rfl | hk
    · exact h.last_lt
    · exact h.key_lt hk
  · rw [hmap] at hk
    rw [hage, hn]
    split_ifs at hk with hkl
    · cases hk
      rw [← hkl, hzero, hfrag, Nat.add_zero]
    · exact h.assigned hk
  · rw [hfirst] at hf
    cases hs : s.firstUnackedFrag <;> rw [hs] at hf <;> cases hf
  · rw [hfirst] at hf
    cases hs : s.firstUnackedFrag with
    | none =>
      rw [hs] at hf
      obtain rfl := Option.some.inj hf
      refine ⟨(hhas _).mpr (Or.inl rfl), fun k hk => ?_⟩
      rcases (hhas k).mp hk with rfl | hk
      · exact le_rfl
      · exact absurd hk (h.first_none hs k)
    | some f' =>
      rw [hs] at hf
      obtain rfl := Option.some.inj hf
      obtain ⟨hf', hmax⟩ := h.first_some hs
      refine ⟨(hhas _).mpr (Or.inr hf'), fun k hk => ?_⟩
      rw [hage, hage]
      rcases (hhas k).mp hk with rfl | hk
      · rw [hzero]
        exact Nat.zero_le _
      · exact hmax k hk

/-- **A deletion moves the start of the window to the oldest fragment left.** -/
theorem Window.deleteUnackedFrag (h : Window s) {k : ℕ} (hk : s.unackedFrags.Has k) :
    ∃ it, s.deleteUnackedFrag k = .ok { s with
        unackedFrags := s.unackedFrags.erase k, firstUnackedFrag := it } ∧
      Window { s with unackedFrags := s.unackedFrags.erase k, firstUnackedFrag := it } := by
  obtain ⟨f, frag, hf, hfrag⟩ := h.first hk
  obtain ⟨hhas, hmax⟩ := h.first_some hf
  obtain ⟨v, hv⟩ := hk
  have herase : ∀ {j}, (s.unackedFrags.erase k).Has j ↔ j ≠ k ∧ s.unackedFrags.Has j := fun {j} => by
    rw [OrdMap.Has, OrdMap.Has, OrdMap.find?_erase]
    by_cases hj : k = j
    · simp [hj]
    · simp [hj, Ne.symm hj]
  have hassigned : ∀ {j g}, (s.unackedFrags.erase k).find? j = some g →
      g.assigned + s.age j = s.nAssigned := fun {j g} hj => by
    rw [OrdMap.find?_erase] at hj
    split_ifs at hj
    exact h.assigned hj
  refine ⟨_, by simp only [LpReliability.deleteUnackedFrag, hf, deref, hfrag, hv]; rfl, ?_⟩
  by_cases hempty : (s.unackedFrags.erase k).toList.isEmpty
  · have hnone := isEmpty_iff.mp hempty
    refine ⟨h.last_lt, fun hj => absurd hj (hnone _), hassigned, fun _ => hnone, fun {g} hg => ?_⟩
    rw [if_neg fun hx => hx.1 hempty, if_pos hempty] at hg
    cases hg
  · by_cases hfk : f = k
    · -- the start itself goes: the walk steps to the next younger one
      subst hfk
      obtain ⟨j, hj⟩ := not_forall_not.mp (fun hx => hempty (isEmpty_iff.mpr hx))
      have hyounger : ∀ {j}, (s.unackedFrags.erase f).Has j → s.age j < s.age f := fun {j} hj => by
        obtain ⟨hjf, hj⟩ := herase.mp hj
        exact lt_of_le_of_ne (hmax j hj) fun he => hjf (h.age_inj hj hhas he)
      obtain ⟨k', hk', hhas', -, hmax'⟩ := OrdMap.nextCircular_spec (m := s.unackedFrags.erase f)
        h.last_lt (fun j hj => h.key_lt (herase.mp hj).2) (h.key_lt hhas) ⟨j, hj, hyounger hj⟩
      refine ⟨h.last_lt, fun hj => h.key_lt (herase.mp hj).2, hassigned, fun hg => ?_,
        fun {g} hg => ?_⟩
      · rw [if_pos ⟨hempty, rfl⟩, hk'] at hg
        cases hg
      · rw [if_pos ⟨hempty, rfl⟩, hk'] at hg
        obtain rfl := Option.some.inj hg
        exact ⟨hhas', fun i hi => hmax' i hi (hyounger hi)⟩
    · refine ⟨h.last_lt, fun hj => h.key_lt (herase.mp hj).2, hassigned, fun hg => ?_,
        fun {g} hg => ?_⟩
      · rw [if_neg fun hx => hfk hx.2, if_neg hempty] at hg
        cases hg
      · rw [if_neg fun hx => hfk hx.2, if_neg hempty] at hg
        obtain rfl := Option.some.inj hg
        exact ⟨herase.mpr ⟨hfk, hhas⟩, fun i hi => hmax i (herase.mp hi).2⟩

/-! ## The walk of `findLostLpPackets` -/

/-- Count one more Ack for a younger fragment. -/
def bump (f : UnackedFrag) : UnackedFrag := { f with nGreaterSeqAcks := f.nGreaterSeqAcks + 1 }

/-- The stored numbers of at most the given age. -/
def youngest (s : LpReliability) (n : ℕ) : Finset ℕ :=
  ((s.unackedFrags.toList.map Prod.fst).filter fun k => s.age k ≤ n).toFinset

theorem mem_youngest {n k : ℕ} : k ∈ s.youngest n ↔ s.unackedFrags.Has k ∧ s.age k ≤ n := by
  rw [youngest, List.mem_toFinset, List.mem_filter, List.mem_map, OrdMap.has_iff,
    decide_eq_true_eq]

theorem card_youngest_le (n : ℕ) : (s.youngest n).card ≤ s.unackedFrags.toList.length := by
  refine (List.toFinset_card_le _).trans ((List.length_filter_le _ _).trans ?_)
  rw [List.length_map]

/-- The walk from the stored number `k`, when the older ones were visited. The measure is the number
of fragments from `k` to the youngest. -/
theorem Window.findLostLoop (h : Window s) (options : Options) {ack : ℕ}
    (hack : s.unackedFrags.Has ack) {fuel : ℕ} {it : Option ℕ} {k : ℕ} {lost : List ℕ}
    {m : OrdMap ℕ UnackedFrag} (hit : it.or m.begin? = some k) (hk : s.unackedFrags.Has k)
    (hage : s.age ack ≤ s.age k) (hfuel : (s.youngest (s.age k)).card ≤ fuel)
    (hm : ∀ j, m.find? j = (s.unackedFrags.find? j).map fun f =>
      if s.age k < s.age j then bump f else f)
    (hlost : ∀ j, j ∈ lost ↔ ∃ f, s.unackedFrags.find? j = some f ∧ s.age k < s.age j ∧
      options.seqNumLossThreshold ≤ f.nGreaterSeqAcks + 1) :
    ∃ lost' m', LpReliability.findLostLoop options ack fuel it lost { s with unackedFrags := m } =
        .ok (lost', { s with unackedFrags := m' }) ∧
      (∀ j, m'.find? j = (s.unackedFrags.find? j).map fun f =>
        if s.age ack < s.age j then bump f else f) ∧
      ∀ j, j ∈ lost' ↔ ∃ f, s.unackedFrags.find? j = some f ∧ s.age ack < s.age j ∧
        options.seqNumLossThreshold ≤ f.nGreaterSeqAcks + 1 := by
  induction fuel generalizing it k lost m with
  | zero =>
    have hpos : 0 < (s.youngest (s.age k)).card := Finset.card_pos.mpr ⟨k, mem_youngest.mpr ⟨hk, le_rfl⟩⟩
    omega
  | succ fuel ih =>
    obtain ⟨f, hf⟩ := hk
    have hmk : m.find? k = some f := by rw [hm, hf, Option.map_some, if_neg (lt_irrefl _)]
    unfold LpReliability.findLostLoop
    simp only [hit, deref, hmk, Except.bind]
    by_cases hka : k = ack
    · subst hka
      rw [if_pos rfl]
      exact ⟨lost, m, rfl, hm, hlost⟩
    · rw [if_neg hka]
      have hlt : s.age ack < s.age k :=
        lt_of_le_of_ne hage fun he => hka (h.age_inj ⟨f, hf⟩ hack he.symm)
      have hm' : ∀ j, (m.insert k (bump f)).find? j = if k = j then some (bump f) else m.find? j :=
        fun j => OrdMap.find?_insert _ _ _ _
      have hhas : ∀ {j}, (m.insert k (bump f)).Has j ↔ s.unackedFrags.Has j := fun {j} => by
        rw [OrdMap.Has, OrdMap.Has, hm', hm]
        by_cases hj : k = j
        · subst hj
          simp [hf]
        · simp [hj]
      -- the next position is the next younger fragment
      obtain ⟨k', hk', hhas', hlt', hnext⟩ := OrdMap.nextCircular_spec (m := m.insert k (bump f))
        h.last_lt (fun j hj => h.key_lt (hhas.mp hj)) (h.key_lt ⟨f, hf⟩) ⟨ack, hhas.mpr hack, hlt⟩
      change s.age k' < s.age k at hlt'
      change ∀ j, (m.insert k (bump f)).Has j → s.age j < s.age k → s.age j ≤ s.age k' at hnext
      have hbetween : ∀ {j}, s.unackedFrags.Has j → (s.age k' < s.age j ↔ j = k ∨ s.age k < s.age j) :=
        fun {j} hj => by
          constructor
          · intro hj'
            by_contra hno
            rw [not_or, not_lt] at hno
            have := hnext j (hhas.mpr hj) (lt_of_le_of_ne hno.2
              fun he => hno.1 (h.age_inj hj ⟨f, hf⟩ he))
            exact absurd hj' (not_lt.mpr this)
          · rintro (rfl | hj')
            · exact hlt'
            · exact hlt'.trans hj'
      refine ih hk' (hhas.mp hhas') (hnext ack (hhas.mpr hack) hlt) ?_ ?_ ?_
      · have hss : s.youngest (s.age k') ⊂ s.youngest (s.age k) := by
          refine Finset.ssubset_iff_of_subset (fun j hj => ?_) |>.mpr
            ⟨k, mem_youngest.mpr ⟨⟨f, hf⟩, le_rfl⟩, fun hx => ?_⟩
          · obtain ⟨hj, hle⟩ := mem_youngest.mp hj
            exact mem_youngest.mpr ⟨hj, hle.trans hlt'.le⟩
          · exact absurd (mem_youngest.mp hx).2 (not_le.mpr hlt')
        have := Finset.card_lt_card hss
        omega
      · intro j
        change (m.insert k (bump f)).find? j = _
        rw [hm', hm]
        by_cases hj : k = j
        · subst hj
          rw [if_pos rfl, hf, Option.map_some, if_pos hlt']
        · rw [if_neg hj]
          cases hfj : s.unackedFrags.find? j with
          | none => simp only [Option.map_none]
          | some g =>
            have hiff := hbetween (j := j) ⟨g, hfj⟩
            rw [or_iff_right fun he => hj he.symm] at hiff
            exact congrArg some (if_congr hiff.symm rfl rfl)
      · intro j
        have hmem : (∃ g, s.unackedFrags.find? j = some g ∧ s.age k' < s.age j ∧
            options.seqNumLossThreshold ≤ g.nGreaterSeqAcks + 1) ↔
            j ∈ lost ∨ j = k ∧ options.seqNumLossThreshold ≤ f.nGreaterSeqAcks + 1 := by
          rw [hlost]
          constructor
          · rintro ⟨g, hg, hj, ht⟩
            rcases (hbetween ⟨g, hg⟩).mp hj with rfl | hj
            · rw [hf] at hg
              cases hg
              exact Or.inr ⟨rfl, ht⟩
            · exact Or.inl ⟨g, hg, hj, ht⟩
          · rintro (⟨g, hg, hj, ht⟩ | ⟨rfl, ht⟩)
            · exact ⟨g, hg, (hbetween ⟨g, hg⟩).mpr (Or.inr hj), ht⟩
            · exact ⟨f, hf, hlt', ht⟩
        rw [hmem]
        split_ifs with ht
        · rw [List.mem_append, List.mem_singleton, and_iff_left ht]
        · exact ⟨Or.inl, fun hx => hx.resolve_right fun hy => ht hy.2⟩

/-- **The walk ends and counts one more Ack for exactly the fragments assigned before the
acknowledged one.** Lost are those of them whose count reaches the threshold. -/
theorem Window.findLostLpPackets (h : Window s) (options : Options) {ack : ℕ} {frag : UnackedFrag}
    (hack : s.unackedFrags.find? ack = some frag) :
    ∃ lost m, s.findLostLpPackets options ack = .ok (lost, { s with unackedFrags := m }) ∧
      (∀ j, m.find? j = (s.unackedFrags.find? j).map fun f =>
        if f.assigned < frag.assigned then bump f else f) ∧
      ∀ j, j ∈ lost ↔ ∃ f, s.unackedFrags.find? j = some f ∧ f.assigned < frag.assigned ∧
        options.seqNumLossThreshold ≤ f.nGreaterSeqAcks + 1 := by
  obtain ⟨f, g, hf, hg⟩ := h.first ⟨frag, hack⟩
  obtain ⟨hhas, hmax⟩ := h.first_some hf
  have hold : ∀ {j}, s.unackedFrags.Has j → ¬ s.age f < s.age j := fun hj => not_lt.mpr (hmax _ hj)
  have hstart : ∀ j, s.unackedFrags.find? j = (s.unackedFrags.find? j).map fun f' =>
      if s.age f < s.age j then bump f' else f' := fun j => by
    cases hj : s.unackedFrags.find? j with
    | none => rw [Option.map_none]
    | some f' => rw [Option.map_some, if_neg (hold ⟨f', hj⟩)]
  have hnone : ∀ j, j ∈ ([] : List ℕ) ↔ ∃ f', s.unackedFrags.find? j = some f' ∧
      s.age f < s.age j ∧ options.seqNumLossThreshold ≤ f'.nGreaterSeqAcks + 1 := fun j =>
    iff_of_false List.not_mem_nil fun ⟨f', hj, hlt, _⟩ => hold ⟨f', hj⟩ hlt
  have hit : s.firstUnackedFrag.or s.unackedFrags.begin? = some f := by rw [hf, Option.some_or]
  obtain ⟨lost, m, hrun, hm, hlost⟩ := h.findLostLoop options ⟨frag, hack⟩ hit hhas
    (hmax ack ⟨frag, hack⟩) (card_youngest_le _) hstart hnone
  refine ⟨lost, m, hrun, fun j => ?_, fun j => ?_⟩
  · rw [hm]
    cases hj : s.unackedFrags.find? j with
    | none => simp only [Option.map_none]
    | some f' => simp only [Option.map_some, h.assigned_lt_iff hj hack]
  · rw [hlost]
    refine exists_congr fun f' => and_congr_right fun hj => ?_
    rw [h.assigned_lt_iff hj hack]

end Ns3Ndn.LpReliability
