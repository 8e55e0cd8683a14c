import Mathlib

/-!
# The common ends of words

Words of the same length, which agree at some places. Their common head is as long as they agree from the first place on, and their common
tail from the last one on.

* `leading`: how many numbers from 0 on have a property;
* `commonHead_add_commonTail_lt`: the ends of words that differ have no place in common.
-/

namespace EndsLib

/-! ## Leading numbers -/

/-- How many of the first `n` numbers, from 0 on, have the property. -/
def leading (p : ℕ → Bool) : ℕ → ℕ
  | 0 => 0
  | n + 1 => if p 0 then leading (fun i => p (i + 1)) n + 1 else 0

/-- The first `k` of `n` numbers have the property, and the next one does not. -/
structure IsLeading (p : ℕ → Bool) (n k : ℕ) : Prop where
  le : k ≤ n
  all : ∀ i < k, p i = true
  stop : k < n → p k = false

variable {p q : ℕ → Bool} {n k j : ℕ}

theorem IsLeading.unique (hk : IsLeading p n k) (hj : IsLeading p n j) : k = j := by
  rcases lt_trichotomy k j with hlt | heq | hlt
  · exact absurd (hj.all k hlt) (by rw [hk.stop (hlt.trans_le hj.le)]; exact Bool.false_ne_true)
  · exact heq
  · exact absurd (hk.all j hlt) (by rw [hj.stop (hlt.trans_le hk.le)]; exact Bool.false_ne_true)

theorem IsLeading.eq_min {m : ℕ} (hk : IsLeading p n k) (hj : IsLeading p m j) (hm : m ≤ n) : j = min m k := by
  refine hj.unique ⟨min_le_left m k, fun i hi => hk.all i (hi.trans_le (min_le_right m k)), fun h => ?_⟩
  have hkm : min m k = k := min_eq_right (Nat.le_of_not_le fun hle => h.ne (min_eq_left hle))
  rw [hkm] at h ⊢
  exact hk.stop (h.trans_le hm)

theorem isLeading_leading (p : ℕ → Bool) (n : ℕ) : IsLeading p n (leading p n) := by
  induction n generalizing p with
  | zero => exact ⟨le_rfl, fun i hi => absurd hi (Nat.not_lt_zero i), fun h => absurd h (Nat.lt_irrefl 0)⟩
  | succ n ih =>
    obtain ⟨hle, hall, hstop⟩ := ih fun i => p (i + 1)
    rw [leading]
    split_ifs with hp
    · refine ⟨Nat.succ_le_succ hle, fun i hi => ?_, fun h => hstop (Nat.lt_of_succ_lt_succ h)⟩
      cases i with
      | zero => exact hp
      | succ i => exact hall i (Nat.lt_of_succ_lt_succ hi)
    · exact ⟨Nat.zero_le _, fun i hi => absurd hi (Nat.not_lt_zero i), fun _ => Bool.eq_false_iff.mpr hp⟩

theorem leading_mono (h : ∀ i, p i = true → q i = true) (n : ℕ) : leading p n ≤ leading q n := by
  obtain ⟨hle, hall, -⟩ := isLeading_leading p n
  obtain ⟨-, -, hstop⟩ := isLeading_leading q n
  by_contra hlt
  have hlt := Nat.not_le.mp hlt
  exact absurd (h _ (hall _ hlt)) (by rw [hstop (hlt.trans_le hle)]; exact Bool.false_ne_true)

/-! ## Common ends -/

variable {α : Type*} [DecidableEq α] {L i t : ℕ} {ws : List (ℕ → α)} {v w : ℕ → α}

def agree (ws : List (ℕ → α)) (i : ℕ) : Bool := ws.all fun v => ws.all fun w => decide (v i = w i)

theorem agree_iff : agree ws i = true ↔ ∀ v ∈ ws, ∀ w ∈ ws, v i = w i := by
  simp only [agree, List.all_eq_true, decide_eq_true_eq]

def commonHead (L : ℕ) (ws : List (ℕ → α)) : ℕ := leading (agree ws) L

def commonTail (L : ℕ) (ws : List (ℕ → α)) : ℕ := leading (fun d => agree ws (L - 1 - d)) L

theorem agree_of_subset {us : List (ℕ → α)} (h : us ⊆ ws) (ha : agree ws i = true) : agree us i = true :=
  agree_iff.mpr fun v hv w hw => agree_iff.mp ha v (h hv) w (h hw)

theorem agree_concat (hv : v ∈ ws) : agree (ws ++ [w]) i = true ↔ agree ws i = true ∧ v i = w i := by
  constructor
  · intro h
    exact ⟨agree_of_subset (List.subset_append_left ws [w]) h,
      agree_iff.mp h v (List.mem_append_left _ hv) w (List.mem_append_right _ List.mem_cons_self)⟩
  · rintro ⟨h, heq⟩
    have hto : ∀ u ∈ ws ++ [w], u i = v i := by
      intro u hu
      rcases List.mem_append.mp hu with hu | hu
      · exact agree_iff.mp h u hu v hv
      · rw [List.mem_singleton.mp hu, heq]
    exact agree_iff.mpr fun u hu u' hu' => (hto u hu).trans (hto u' hu').symm

theorem commonHead_concat (hv : v ∈ ws) (h : IsLeading (fun i => decide (v i = w i)) (commonHead L ws) k) :
    k = commonHead L (ws ++ [w]) := by
  obtain ⟨hle, hall, hstop⟩ := isLeading_leading (agree ws) L
  refine IsLeading.unique (p := agree (ws ++ [w])) (n := L) ⟨h.le.trans hle, fun i hi => ?_, fun hk => ?_⟩ (isLeading_leading _ L)
  · exact (agree_concat hv).mpr ⟨hall i (hi.trans_le h.le), of_decide_eq_true (h.all i hi)⟩
  · rw [Bool.eq_false_iff, Ne, agree_concat hv, not_and_or]
    rcases h.le.eq_or_lt with rfl | hlt
    · exact .inl (Bool.eq_false_iff.mp (hstop hk))
    · exact .inr (of_decide_eq_false (h.stop hlt))

theorem commonTail_concat_le (ws : List (ℕ → α)) (w : ℕ → α) : commonTail L (ws ++ [w]) ≤ commonTail L ws :=
  leading_mono (fun _ => agree_of_subset (List.subset_append_left ws [w])) L

theorem commonTail_concat_le_pair (hv : v ∈ ws) : commonTail L (ws ++ [w]) ≤ commonTail L [v, w] := by
  refine leading_mono (fun _ => agree_of_subset ?_) L
  rintro u hu
  rcases List.mem_cons.mp hu with rfl | hu
  · exact List.mem_append_left _ hv
  · exact List.mem_append_right _ hu

/-- **The ends of words that differ have no place in common.** -/
theorem commonHead_add_commonTail_lt (h : commonHead L ws < L) : commonHead L ws + commonTail L ws < L := by
  obtain ⟨-, hall, -⟩ := isLeading_leading (fun d => agree ws (L - 1 - d)) L
  have hstop := (isLeading_leading (agree ws) L).stop h
  by_contra hge
  have hd : L - 1 - commonHead L ws < commonTail L ws := by omega
  have hplace : L - 1 - (L - 1 - commonHead L ws) = commonHead L ws := by omega
  have hagree := hall _ hd
  rw [hplace] at hagree
  exact Bool.false_ne_true (hstop.symm.trans hagree)

/-- The words agree from place `L - t` on. -/
theorem le_commonTail_iff (ht : t ≤ L) : t ≤ commonTail L ws ↔ ∀ i, L - t ≤ i → i < L → agree ws i = true := by
  obtain ⟨-, hall, hstop⟩ := isLeading_leading (fun d => agree ws (L - 1 - d)) L
  constructor
  · intro h i hi hi'
    have hagree := hall (L - 1 - i) (lt_of_lt_of_le (by omega) h)
    rwa [show L - 1 - (L - 1 - i) = i by omega] at hagree
  · intro h
    by_contra hlt
    have hlt : commonTail L ws < t := Nat.not_le.mp hlt
    have hfalse := hstop (hlt.trans_le ht)
    exact Bool.false_ne_true (hfalse.symm.trans (h _ (by change L - t ≤ L - 1 - commonTail L ws; omega) (by omega)))

theorem agree_of_lt_commonHead (h : i < commonHead L ws) : agree ws i = true := (isLeading_leading (agree ws) L).all i h

theorem commonHead_lt_iff : commonHead L ws < L ↔ ∃ i < L, agree ws i = false := by
  obtain ⟨hle, hall, hstop⟩ := isLeading_leading (agree ws) L
  constructor
  · exact fun h => ⟨_, h, hstop h⟩
  · rintro ⟨i, hi, hdiff⟩
    refine lt_of_le_of_ne hle fun heq => ?_
    rw [hall i (hi.trans_eq heq.symm)] at hdiff
    exact Bool.false_ne_true hdiff.symm

end EndsLib
