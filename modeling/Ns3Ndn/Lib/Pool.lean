import Mathlib

/-!
# Counted blocks with a free list

Blocks of memory that count their users. A block without users goes to a free list or back to the system, and a new
block is taken from the free list when one of its blocks fits.

* `uses`, **`uses_update`**: the users of a block, when one of them takes another block;
* `Pool.Inv`: the counts are those that are expected, and free blocks have no users.
-/

namespace PoolLib

open Function

/-! ## Users -/

section Uses

/-- **A change at one place** of a finite set changes the number of places with a value by that place. -/
theorem card_filter_update {β γ : Type} [DecidableEq β] [DecidableEq γ] {t : Finset β} {x : β} (hx : x ∈ t) (f : β → γ)
    (v w : γ) :
    (t.filter fun y => update f x v y = w).card + (if f x = w then 1 else 0) =
      (t.filter fun y => f y = w).card + (if v = w then 1 else 0) := by
  have hrest : ∀ v, (t.filter fun y => update f x v y = w).card =
      ((t.erase x).filter fun y => f y = w).card + (if v = w then 1 else 0) := by
    intro v
    rw [← Finset.insert_erase hx, Finset.filter_insert]
    have hsame : ((t.erase x).filter fun y => update f x v y = w) = (t.erase x).filter fun y => f y = w := by
      refine Finset.filter_congr fun y hy => ?_
      rw [update_of_ne (Finset.ne_of_mem_erase hy)]
    rw [update_self, hsame]
    split_ifs with hw
    · rw [Finset.card_insert_of_notMem, Finset.insert_erase hx]
      simp
    · rw [Finset.insert_erase hx, Nat.add_zero]
  have hold := hrest (f x)
  rw [update_eq_self] at hold
  rw [hrest v, hold]
  omega

variable {ι : Type} [Fintype ι] {users : ι → Option ℕ} {i : ι} {a : ℕ}

def uses (users : ι → Option ℕ) (a : ℕ) : ℕ := (Finset.univ.filter fun i => users i = some a).card

theorem uses_update [DecidableEq ι] (users : ι → Option ℕ) (i : ι) (v : Option ℕ) (a : ℕ) :
    uses (update users i v) a + (if users i = some a then 1 else 0) = uses users a + (if v = some a then 1 else 0) :=
  card_filter_update (Finset.mem_univ i) users v (some a)

theorem uses_pos (h : users i = some a) : 0 < uses users a :=
  Finset.card_pos.mpr ⟨i, Finset.mem_filter.mpr ⟨Finset.mem_univ i, h⟩⟩

theorem eq_of_uses_eq_one {j : ι} (h : uses users a = 1) (hi : users i = some a) (hj : users j = some a) : i = j :=
  Finset.card_le_one.mp h.le i (Finset.mem_filter.mpr ⟨Finset.mem_univ i, hi⟩) j
    (Finset.mem_filter.mpr ⟨Finset.mem_univ j, hj⟩)

variable [DecidableEq ι]

theorem uses_set_some (h : users i = none) : uses (update users i (some a)) = update (uses users) a (uses users a + 1) := by
  funext x
  have hcount := uses_update users i (some a) x
  rw [h, if_neg (Option.some_ne_none x).symm] at hcount
  rw [update_apply]
  simp only [Option.some.injEq] at hcount
  split_ifs at * <;> grind

theorem uses_set_none (h : users i = some a) : uses (update users i none) = update (uses users) a (uses users a - 1) := by
  funext x
  have hcount := uses_update users i none x
  rw [h, if_neg (Option.some_ne_none x).symm] at hcount
  rw [update_apply]
  simp only [Option.some.injEq] at hcount
  split_ifs at * <;> grind

end Uses

/-! ## Blocks -/

/-- The values of the blocks and their numbers of users. -/
structure Pool (α : Type) where
  val : ℕ → Option α := fun _ => none
  count : ℕ → ℕ := fun _ => 0
  free : List ℕ := []
  fresh : ℕ := 0

variable {α : Type}

/-- The free blocks are given back until one fits. -/
def pop (fits : α → Bool) (val : ℕ → Option α) : List ℕ → Option ℕ × List ℕ × (ℕ → Option α)
  | [] => (none, [], val)
  | a :: free => if (val a).any fits then (some a, free, val) else pop fits (update val a none) free

namespace Pool

variable (p : Pool α)

def create (fits : α → Bool) (v : ℕ → α) : Pool α × ℕ :=
  match pop fits p.val p.free with
  | (some a, free, val) => ({ p with val := val, count := update p.count a 1, free := free }, a)
  | (none, free, val) =>
    ({ val := update val p.fresh (some (v p.fresh))
       count := update p.count p.fresh 1
       free := free
       fresh := p.fresh + 1 }, p.fresh)

def share (a : ℕ) : Pool α := { p with count := update p.count a (p.count a + 1) }

def setVal (a : ℕ) (v : α) : Pool α := { p with val := update p.val a (some v) }

@[simp] theorem count_share (a : ℕ) : (p.share a).count = update p.count a (p.count a + 1) := rfl
@[simp] theorem val_setVal (a : ℕ) (v : α) : (p.setVal a v).val = update p.val a (some v) := rfl
/-- One user less. The last one puts the block on the free list, or gives it back. -/
def release (a : ℕ) (keep : Bool) : Pool α :=
  if p.count a - 1 = 0 then
    if keep then { p with count := update p.count a 0, free := a :: p.free }
    else { p with val := update p.val a none, count := update p.count a 0 }
  else { p with count := update p.count a (p.count a - 1) }

/-- The counts are `n`, and the free blocks have none. -/
structure Inv (p : Pool α) (n : ℕ → ℕ) : Prop where
  count : ∀ a, p.count a = n a
  live : ∀ a, n a ≠ 0 → p.val a ≠ none
  free : ∀ a ∈ p.free, n a = 0 ∧ p.val a ≠ none
  nodup : p.free.Nodup
  fresh : ∀ a, p.fresh ≤ a → p.val a = none

variable {p} {n : ℕ → ℕ} {a : ℕ}

/-- **One user more.** -/
theorem Inv.share (h : p.Inv n) (ha : n a ≠ 0) : (p.share a).Inv (update n a (n a + 1)) where
  count b := by
    rw [count_share, funext h.count]
  live b hb := by
    by_cases hba : b = a
    · rw [hba]
      exact h.live a ha
    · rw [update_of_ne hba] at hb
      exact h.live b hb
  free b hb := by
    have hne : b ≠ a := fun hba => ha (hba ▸ (h.free b hb).1)
    rw [update_of_ne hne]
    exact h.free b hb
  nodup := h.nodup
  fresh := h.fresh

theorem Inv.setVal (h : p.Inv n) (ha : n a ≠ 0) (v : α) : (p.setVal a v).Inv n where
  count := h.count
  live b hb := by
    by_cases hba : b = a
    · simp [hba]
    · rw [val_setVal, update_of_ne hba]
      exact h.live b hb
  free b hb := by
    have hne : b ≠ a := fun hba => ha (hba ▸ (h.free b hb).1)
    rw [val_setVal, update_of_ne hne]
    exact h.free b hb
  nodup := h.nodup
  fresh b hb := by
    have hne : b ≠ a := by
      rintro rfl
      exact h.live b ha (h.fresh b hb)
    rw [val_setVal, update_of_ne hne]
    exact h.fresh b hb

/-- **One user less.** The values of the blocks that are still used stay. -/
theorem Inv.release (h : p.Inv n) (ha : n a ≠ 0) (keep : Bool) :
    (p.release a keep).Inv (update n a (n a - 1)) ∧
      ∀ b, update n a (n a - 1) b ≠ 0 → (p.release a keep).val b = p.val b := by
  have hnot : a ∉ p.free := fun hmem => ha (h.free a hmem).1
  have hcount : update p.count a (n a - 1) = update n a (n a - 1) := by rw [funext h.count]
  have hval : ∀ b, update n a (n a - 1) b ≠ 0 → b ≠ a → n b ≠ 0 := by
    intro b hb hba
    rwa [update_of_ne hba] at hb
  rw [Pool.release, h.count]
  by_cases hlast : n a - 1 = 0
  · rw [if_pos hlast]
    rw [hlast] at hcount hval ⊢
    cases keep with
    | true =>
      rw [if_pos rfl]
      refine ⟨⟨fun b => congrFun hcount b, fun b hb => ?_, fun b hb => ?_, List.nodup_cons.mpr ⟨hnot, h.nodup⟩, h.fresh⟩,
        fun _ _ => rfl⟩
      · by_cases hba : b = a
        · simp [hba] at hb
        · exact h.live b (hval b hb hba)
      · rcases List.mem_cons.mp hb with rfl | hb
        · exact ⟨update_self _ _ _, h.live b ha⟩
        · have hba : b ≠ a := ne_of_mem_of_not_mem hb hnot
          rw [update_of_ne hba]
          exact h.free b hb
    | false =>
      rw [if_neg Bool.false_ne_true]
      have hsame : ∀ b, update n a 0 b ≠ 0 → update p.val a none b = p.val b := by
        intro b hb
        by_cases hba : b = a
        · simp [hba] at hb
        · exact update_of_ne hba _ _
      refine ⟨⟨fun b => congrFun hcount b, fun b hb => ?_, fun b hb => ?_, h.nodup, fun b hb => ?_⟩, hsame⟩
      · change update p.val a none b ≠ none
        rw [hsame b hb]
        by_cases hba : b = a
        · simp [hba] at hb
        · exact h.live b (hval b hb hba)
      · have hba : b ≠ a := ne_of_mem_of_not_mem hb hnot
        change _ ∧ update p.val a none b ≠ none
        rw [update_of_ne hba, update_of_ne hba]
        exact h.free b hb
      · change update p.val a none b = none
        by_cases hba : b = a
        · rw [hba, update_self]
        · rw [update_of_ne hba]
          exact h.fresh b hb
  · rw [if_neg hlast]
    refine ⟨⟨fun b => congrFun hcount b, fun b hb => ?_, fun b hb => ?_, h.nodup, h.fresh⟩, fun _ _ => rfl⟩
    · by_cases hba : b = a
      · rw [hba]
        exact h.live a ha
      · exact h.live b (hval b hb hba)
    · have hba : b ≠ a := ne_of_mem_of_not_mem hb hnot
      rw [update_of_ne hba]
      exact h.free b hb

theorem pop_cases (fits : α → Bool) (val : ℕ → Option α) (free : List ℕ) (hnodup : free.Nodup) :
    (∃ a rest val', pop fits val free = (some a, rest, val') ∧ a ∈ free ∧ (a :: rest).Sublist free ∧
      (val a).any fits = true ∧ (∀ b, b ∉ free → val' b = val b) ∧ ∀ b ∈ a :: rest, val' b = val b) ∨
    ∃ val', pop fits val free = (none, [], val') ∧ ∀ b, b ∉ free → val' b = val b := by
  induction free generalizing val with
  | nil => exact .inr ⟨val, rfl, fun _ _ => rfl⟩
  | cons x free ih =>
    obtain ⟨hx, hrest⟩ := List.nodup_cons.mp hnodup
    rw [pop]
    by_cases hfits : (val x).any fits = true
    · rw [if_pos hfits]
      exact .inl ⟨x, free, val, rfl, List.mem_cons_self, List.Sublist.refl _, hfits, fun _ _ => rfl, fun _ _ => rfl⟩
    · rw [if_neg hfits]
      have hup : ∀ b, b ≠ x → update val x none b = val b := fun b hb => update_of_ne hb _ _
      rcases ih (update val x none) hrest with ⟨a, rest, val', heq, ha, hsub, hany, hout, hin⟩ | ⟨val', heq, hout⟩
      · have hax : a ≠ x := ne_of_mem_of_not_mem ha hx
        refine .inl ⟨a, rest, val', heq, List.mem_cons_of_mem x ha, hsub.cons x, ?_, fun b hb => ?_, fun b hb => ?_⟩
        · rwa [hup a hax] at hany
        · rw [List.mem_cons, not_or] at hb
          rw [hout b hb.2, hup b hb.1]
        · rw [hin b hb, hup b (ne_of_mem_of_not_mem (hsub.subset hb) hx)]
      · refine .inr ⟨val', heq, fun b hb => ?_⟩
        rw [List.mem_cons, not_or] at hb
        rw [hout b hb.2, hup b hb.1]

theorem pop_update (fits : α → Bool) (val : ℕ → Option α) {free : List ℕ} (ha : a ∉ free) (v : Option α) :
    pop fits (update val a v) free = ((pop fits val free).1, (pop fits val free).2.1, update (pop fits val free).2.2 a v) := by
  induction free generalizing val with
  | nil => rfl
  | cons x free ih =>
    rw [List.mem_cons, not_or] at ha
    rw [pop, pop, update_of_ne (Ne.symm ha.1)]
    split_ifs
    · rfl
    · rw [update_comm ha.1, ih _ ha.2]

/-- **A block that has users** does not matter for a new one. -/
theorem Inv.create_setVal (h : p.Inv n) (ha : n a ≠ 0) (fits : α → Bool) (w : ℕ → α) (v : α) :
    (p.setVal a v).create fits w = ((p.create fits w).1.setVal a v, (p.create fits w).2) := by
  have hfree : a ∉ p.free := fun hmem => ha (h.free a hmem).1
  have hfresh : p.fresh ≠ a := by
    rintro rfl
    exact h.live _ ha (h.fresh _ le_rfl)
  rw [Pool.create, Pool.create, val_setVal]
  change (match pop fits (update p.val a (some v)) p.free with
    | (some x, free, val) => _
    | (none, free, val) => _) = _
  rw [pop_update fits p.val hfree]
  rcases pop fits p.val p.free with ⟨_ | x, free, val⟩
  · dsimp only [Pool.setVal]
    rw [update_comm hfresh]
  · rfl

/-- **A block for a new user**: it had none, it fits or is new, and the blocks of others stay. -/
theorem Inv.create (h : p.Inv n) (fits : α → Bool) (v : ℕ → α) :
    n (p.create fits v).2 = 0 ∧ (p.create fits v).1.Inv (update n (p.create fits v).2 1) ∧
      (∃ w, (p.create fits v).1.val (p.create fits v).2 = some w ∧ (fits w = true ∨ ∃ a, w = v a)) ∧
      ∀ b, n b ≠ 0 → (p.create fits v).1.val b = p.val b := by
  have hused : ∀ b, n b ≠ 0 → b ∉ p.free := fun b hb hmem => hb (h.free b hmem).1
  rw [Pool.create]
  rcases pop_cases fits p.val p.free h.nodup with ⟨a, rest, val', heq, ha, hsub, hany, hout, hin⟩ | ⟨val', heq, hout⟩
  · rw [heq]
    have hzero := (h.free a ha).1
    have hnodup := List.nodup_cons.mp (h.nodup.sublist hsub)
    have hrest : ∀ b ∈ rest, b ≠ a := fun b hb => ne_of_mem_of_not_mem hb hnodup.1
    refine ⟨hzero, ⟨fun b => ?_, fun b hb => ?_, fun b hb => ?_, hnodup.2, fun b hb => ?_⟩, ?_, fun b hb => hout b (hused b hb)⟩
    · change update p.count a 1 b = update n a 1 b
      rw [funext h.count]
    · change val' b ≠ none
      by_cases hba : b = a
      · rw [hba, hin a List.mem_cons_self]
        exact (h.free a ha).2
      · rw [update_of_ne hba] at hb
        rw [hout b (hused b hb)]
        exact h.live b hb
    · change _ ∧ val' b ≠ none
      rw [update_of_ne (hrest b hb), hin b (List.mem_cons_of_mem a hb)]
      exact h.free b (hsub.subset (List.mem_cons_of_mem a hb))
    · change val' b = none
      have hnone := h.fresh b hb
      rw [hout b (fun hmem => (h.free b hmem).2 hnone), hnone]
    · obtain ⟨w, hw⟩ := Option.ne_none_iff_exists'.mp (h.free a ha).2
      refine ⟨w, (hin a List.mem_cons_self).trans hw, .inl ?_⟩
      rwa [hw] at hany
  · rw [heq]
    have hnone := h.fresh p.fresh le_rfl
    have hzero : n p.fresh = 0 := by
      by_contra hne
      exact h.live _ hne hnone
    refine ⟨hzero, ⟨fun b => ?_, fun b hb => ?_, by simp, List.nodup_nil, fun b hb => ?_⟩, ⟨_, update_self _ _ _, .inr ⟨_, rfl⟩⟩,
      fun b hb => ?_⟩
    · change update p.count p.fresh 1 b = update n p.fresh 1 b
      rw [funext h.count]
    · change update val' p.fresh _ b ≠ none
      by_cases hbf : b = p.fresh
      · simp [hbf]
      · rw [update_of_ne hbf] at hb ⊢
        rw [hout b (hused b hb)]
        exact h.live b hb
    · change p.fresh + 1 ≤ b at hb
      change update val' p.fresh _ b = none
      have hold := h.fresh b (by omega)
      rw [update_of_ne (by omega), hout b (fun hmem => (h.free b hmem).2 hold), hold]
    · change update val' p.fresh _ b = _
      have hbf : b ≠ p.fresh := by
        rintro rfl
        exact hb hzero
      rw [update_of_ne hbf, hout b (hused b hb)]

end Pool

end PoolLib
