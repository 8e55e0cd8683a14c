import Mathlib

/-!
# Binary heaps

A heap in an array whose place 0 is not used: the children of place `i` are at `2 * i` and `2 * i + 1`. Elements are
compared by a key. Each of the two loops repairs an order that is broken at one place, `bottomUp` towards the root
and `topDown` away from it.

* `Ordered`: no element has a smaller key than its parent; `Ordered.root_le`: the root has the least key;
* **`ordered_bottomUp`**, **`ordered_topDown`**: the loops repair it;
* `ordered_removeAt_iff`: what becomes of the order when the last element takes the place of another.
-/

namespace HeapLib

variable {α κ : Type} [Inhabited α] [LinearOrder κ] (key : α → κ)

/-- The element at a place. -/
def get (h : Array α) (i : ℕ) : α := h[i]?.getD default

/-- The element at place `a` has a smaller key than that at place `b`. -/
def isLessStrictly (h : Array α) (a b : ℕ) : Bool := key (get h a) < key (get h b)

/-- Exchange the elements at two places. -/
def exch (h : Array α) (a b : ℕ) : Array α := h.swapIfInBounds a b

/-- Move an element towards the root, until its parent is not greater. -/
def bottomUp : (fuel : ℕ) → Array α → (index : ℕ) → Array α
  | 0, h, _ => h
  | fuel + 1, h, index =>
    if index ≠ 1 ∧ isLessStrictly key h index (index / 2) then
      bottomUp fuel (exch h index (index / 2)) (index / 2)
    else h

def smallest (h : Array α) (a b : ℕ) : ℕ := if isLessStrictly key h a b then a else b

/-- Move an element away from the root, until its children are greater. -/
def topDown : (fuel : ℕ) → Array α → (index : ℕ) → Array α
  | 0, h, _ => h
  | fuel + 1, h, index =>
    if index * 2 + 1 < h.size then
      let tmp := smallest key h (index * 2) (index * 2 + 1)
      if isLessStrictly key h index tmp then h else topDown fuel (exch h index tmp) tmp
    else if h.size ≤ index then h
    else if h.size ≤ index * 2 then h
    else if isLessStrictly key h index (index * 2) then h
    else exch h index (index * 2)

/-! ## Exchanges -/

section Exch

variable {h : Array α} {a b i : ℕ}

omit [Inhabited α] in
theorem size_exch : (exch h a b).size = h.size := Array.size_swapIfInBounds

omit [Inhabited α] in
theorem exch_perm : (exch h a b).toList.Perm h.toList := by
  rw [exch, Array.swapIfInBounds_def]
  split_ifs with ha hb
  · exact Array.perm_iff_toList_perm.mp (Array.swap_perm ha hb)
  · exact List.Perm.refl _
  · exact List.Perm.refl _

theorem get_eq (hi : i < h.size) : get h i = h[i] := by
  rw [get, Array.getElem?_eq_getElem hi, Option.getD_some]

theorem get_exch (ha : a < h.size) (hb : b < h.size) (i : ℕ) :
    get (exch h a b) i = if i = a then get h b else if i = b then get h a else get h i := by
  rw [exch, Array.swapIfInBounds_def, dif_pos ha, dif_pos hb, get, Array.getElem?_swap, get_eq ha, get_eq hb, get]
  by_cases hia : i = a
  · by_cases hib : i = b
    · subst hia
      subst hib
      simp
    · simp [hia, Ne.symm (hia ▸ hib)]
  · by_cases hib : i = b
    · subst hib
      simp [hia]
    · simp [hia, hib, Ne.symm hia, Ne.symm hib]

theorem get_pop (hi : i < h.size - 1) : get h.pop i = get h i := by
  have h1 : i < h.pop.size := by
    rw [Array.size_pop]
    exact hi
  rw [get_eq h1, get_eq (by omega), Array.getElem_pop]

theorem get_push_lt (x : α) (hi : i < h.size) : get (h.push x) i = get h i := by
  have h1 : i < (h.push x).size := by
    rw [Array.size_push]
    omega
  rw [get_eq h1, get_eq hi, Array.getElem_push_lt hi]

theorem get_push_size (x : α) : get (h.push x) h.size = x := by
  simp [get]

theorem bottomUp_size (fuel : ℕ) (h : Array α) (index : ℕ) : (bottomUp key fuel h index).size = h.size := by
  induction fuel generalizing h index with
  | zero => rfl
  | succ fuel ih =>
    rw [bottomUp]
    split_ifs
    · rw [ih, size_exch]
    · rfl

theorem bottomUp_perm (fuel : ℕ) (h : Array α) (index : ℕ) :
    (bottomUp key fuel h index).toList.Perm h.toList := by
  induction fuel generalizing h index with
  | zero => exact List.Perm.refl _
  | succ fuel ih =>
    rw [bottomUp]
    split_ifs
    · exact (ih _ _).trans exch_perm
    · exact List.Perm.refl _

theorem topDown_size (fuel : ℕ) (h : Array α) (index : ℕ) : (topDown key fuel h index).size = h.size := by
  induction fuel generalizing h index with
  | zero => rfl
  | succ fuel ih =>
    rw [topDown]
    dsimp only
    split_ifs
    · rfl
    · rw [ih, size_exch]
    · rfl
    · rfl
    · rfl
    · exact size_exch

theorem topDown_perm (fuel : ℕ) (h : Array α) (index : ℕ) :
    (topDown key fuel h index).toList.Perm h.toList := by
  induction fuel generalizing h index with
  | zero => exact List.Perm.refl _
  | succ fuel ih =>
    rw [topDown]
    dsimp only
    split_ifs
    · exact List.Perm.refl _
    · exact (ih _ _).trans exch_perm
    · exact List.Perm.refl _
    · exact List.Perm.refl _
    · exact List.Perm.refl _
    · exact exch_perm

end Exch

/-! ## What is stored -/

/-- The elements of a heap. -/
def stored (h : Array α) : List α := h.toList.tail

section Stored

variable {h h' : Array α} {a b i : ℕ}

theorem get_exch_zero (ha : 1 ≤ a) (hb : 1 ≤ b) : get (exch h a b) 0 = get h 0 := by
  by_cases hbound : a < h.size ∧ b < h.size
  · rw [get_exch hbound.1 hbound.2, if_neg (by omega), if_neg (by omega)]
  · have hsame : exch h a b = h := by
      rw [exch, Array.swapIfInBounds_def]
      split_ifs with h1 h2
      · exact absurd ⟨h1, h2⟩ hbound
      · rfl
      · rfl
    rw [hsame]

theorem get_bottomUp_zero {fuel : ℕ} (hi : 1 ≤ i) : get (bottomUp key fuel h i) 0 = get h 0 := by
  induction fuel generalizing h i with
  | zero => rfl
  | succ fuel ih =>
    rw [bottomUp]
    split_ifs with hcond
    · have h2 : 1 ≤ i / 2 := by omega
      rw [ih h2, get_exch_zero hi h2]
    · rfl

theorem get_topDown_zero {fuel : ℕ} (hi : 1 ≤ i) : get (topDown key fuel h i) 0 = get h 0 := by
  induction fuel generalizing h i with
  | zero => rfl
  | succ fuel ih =>
    rw [topDown]
    dsimp only
    split_ifs
    · rfl
    · have htmp : 1 ≤ smallest key h (i * 2) (i * 2 + 1) := by
        rw [smallest]
        split_ifs <;> omega
      rw [ih htmp, get_exch_zero hi htmp]
    · rfl
    · rfl
    · rfl
    · exact get_exch_zero hi (by omega)

theorem toList_eq (hpos : 0 < h.size) : h.toList = get h 0 :: stored h := by
  obtain ⟨l⟩ := h
  cases l with
  | nil => exact absurd hpos (Nat.not_lt_zero _)
  | cons x l => rfl

theorem stored_perm (hpos : 0 < h.size) (hperm : h'.toList.Perm h.toList) (hzero : get h' 0 = get h 0) :
    (stored h').Perm (stored h) := by
  have hpos' : 0 < h'.size := by
    have := hperm.length_eq
    rw [Array.length_toList, Array.length_toList] at this
    omega
  rw [toList_eq hpos, toList_eq hpos', hzero] at hperm
  exact hperm.cons_inv

theorem mem_stored {x : α} : x ∈ stored h ↔ ∃ i, 1 ≤ i ∧ i < h.size ∧ get h i = x := by
  rw [stored, List.mem_iff_getElem?]
  constructor
  · rintro ⟨j, hj⟩
    rw [List.getElem?_tail, Array.getElem?_toList] at hj
    have hlt : j + 1 < h.size := (Array.getElem?_eq_some_iff.mp hj).1
    exact ⟨j + 1, by omega, hlt, by rw [get, hj, Option.getD_some]⟩
  · rintro ⟨i, hi, hlt, rfl⟩
    refine ⟨i - 1, ?_⟩
    rw [List.getElem?_tail, Array.getElem?_toList, Nat.sub_add_cancel hi, get_eq hlt,
      Array.getElem?_eq_getElem hlt]

omit [Inhabited α] in
theorem stored_push (hpos : 0 < h.size) (x : α) : stored (h.push x) = stored h ++ [x] := by
  rw [stored, stored, Array.toList_push, List.tail_append_of_ne_nil]
  intro hnil
  rw [← Array.length_toList, hnil] at hpos
  exact Nat.lt_irrefl _ hpos

theorem stored_exch_pop (hi : 1 ≤ i) (hlt : i < h.size) :
    (stored h).Perm (get h i :: stored (exch h i (h.size - 1)).pop) := by
  have hsize : (exch h i (h.size - 1)).size = h.size := size_exch
  have hexch : (stored (exch h i (h.size - 1))).Perm (stored h) :=
    stored_perm (by omega) exch_perm (get_exch_zero hi (by omega))
  refine hexch.symm.trans ?_
  have hlast : get (exch h i (h.size - 1)) (h.size - 1) = get h i := by
    rw [get_exch hlt (by omega)]
    split_ifs with hlast hself
    · rw [hlast]
    · rfl
    · exact absurd rfl hself
  have hsplit : (exch h i (h.size - 1)).toList = (exch h i (h.size - 1)).pop.toList ++ [get h i] := by
    have hne : (exch h i (h.size - 1)).size ≠ 0 := by omega
    obtain ⟨ys, x, hys⟩ := Array.eq_push_of_size_ne_zero hne
    have hx : x = get h i := by
      have hys' : h.size - 1 = ys.size := by
        have := congrArg Array.size hys
        rw [hsize, Array.size_push] at this
        omega
      rw [← hlast, hys, hys', get_push_size]
    rw [hys, Array.pop_push, Array.toList_push, hx]
  have hne : (exch h i (h.size - 1)).pop.toList ≠ [] := by
    intro hnil
    have := congrArg List.length hnil
    rw [Array.length_toList, Array.size_pop, hsize, List.length_nil] at this
    omega
  rw [stored, hsplit, List.tail_append_of_ne_nil hne]
  exact List.perm_append_singleton _ _

end Stored

/-! ## The order -/

def Ordered (h : Array α) : Prop := ∀ i, 2 ≤ i → i < h.size → key (get h (i / 2)) ≤ key (get h i)

/-- The order may be broken between place `i` and its parent. -/
structure UpTo (h : Array α) (i : ℕ) : Prop where
  except : ∀ j, 2 ≤ j → j < h.size → j ≠ i → key (get h (j / 2)) ≤ key (get h j)
  grand : 2 ≤ i → ∀ c, c / 2 = i → c < h.size → key (get h (i / 2)) ≤ key (get h c)

/-- The order may be broken between place `i` and its children. -/
structure DownTo (h : Array α) (i : ℕ) : Prop where
  except : ∀ j, 2 ≤ j → j < h.size → j / 2 ≠ i → key (get h (j / 2)) ≤ key (get h j)
  grand : 2 ≤ i → ∀ c, c / 2 = i → c < h.size → key (get h (i / 2)) ≤ key (get h c)

section Order

variable {key} {h : Array α} {i : ℕ}

theorem Ordered.root_le (hord : Ordered key h) (hi : 1 ≤ i) (hlt : i < h.size) : key (get h 1) ≤ key (get h i) := by
  induction i using Nat.strongRecOn with
  | ind i ih =>
    rcases hi.eq_or_lt with rfl | hi
    · exact le_rfl
    · exact (ih (i / 2) (by omega) (by omega) (by omega)).trans (hord i hi hlt)

theorem isLessStrictly_iff {a b : ℕ} : isLessStrictly key h a b = true ↔ key (get h a) < key (get h b) := by
  rw [isLessStrictly, decide_eq_true_eq]

/-- One turn of `bottomUp`. -/
theorem UpTo.exch (hup : UpTo key h i) (hi : 2 ≤ i) (hlt : i < h.size)
    (hless : key (get h i) < key (get h (i / 2))) : UpTo key (exch h i (i / 2)) (i / 2) := by
  have hget := get_exch (h := h) (a := i) (b := i / 2) hlt (by omega)
  -- the elements below the parent are not smaller than it
  have hbelow : ∀ j, j / 2 = i / 2 → 2 ≤ j → j < h.size → j ≠ i → key (get h (i / 2)) ≤ key (get h j) := by
    intro j hj h2 hsize hne
    rw [← hj]
    exact hup.except j h2 hsize hne
  refine ⟨fun j h2 hsize hne => ?_, fun h2 c hc hsize => ?_⟩
  · rw [size_exch] at hsize
    rw [hget, hget]
    by_cases hji : j = i
    · rw [if_neg (by omega), if_pos (by omega), if_pos hji]
      exact hless.le
    rw [if_neg hji, if_neg hne]
    by_cases hjp : j / 2 = i
    · rw [if_pos hjp]
      exact hup.grand hi j hjp hsize
    rw [if_neg hjp]
    by_cases hjq : j / 2 = i / 2
    · rw [if_pos hjq]
      exact hless.le.trans (hbelow j hjq h2 hsize hji)
    · rw [if_neg hjq]
      exact hup.except j h2 hsize hji
  · rw [size_exch] at hsize
    have hparent : key (get h (i / 2 / 2)) ≤ key (get h (i / 2)) := hup.except (i / 2) h2 (by omega) (by omega)
    rw [hget, hget, if_neg (by omega), if_neg (by omega)]
    by_cases hci : c = i
    · rw [if_pos hci]
      exact hparent
    · rw [if_neg hci, if_neg (by omega)]
      exact hparent.trans (hbelow c hc (by omega) hsize hci)

/-- **`bottomUp` repairs the order.** -/
theorem ordered_bottomUp {fuel : ℕ} (hup : UpTo key h i) (hi : 1 ≤ i) (hlt : i < h.size) (hfuel : i ≤ fuel) :
    Ordered key (bottomUp key fuel h i) := by
  induction fuel generalizing h i with
  | zero => omega
  | succ fuel ih =>
    rw [bottomUp]
    split_ifs with hcond
    · obtain ⟨hne, hless⟩ := hcond
      have h2 : 2 ≤ i := by omega
      refine ih (hup.exch h2 hlt (isLessStrictly_iff.mp hless)) (by omega) ?_ (by omega)
      rw [size_exch]
      omega
    · intro j h2 hsize
      by_cases hji : j = i
      · subst hji
        by_contra hless
        exact hcond ⟨by omega, isLessStrictly_iff.mpr (not_le.mp hless)⟩
      · exact hup.except j h2 hsize hji

variable (key) in
theorem smallest_cases (h : Array α) (a b : ℕ) :
    smallest key h a b = a ∧ key (get h a) ≤ key (get h b) ∨
      smallest key h a b = b ∧ key (get h b) ≤ key (get h a) := by
  rw [smallest]
  split_ifs with hless
  · exact Or.inl ⟨rfl, (isLessStrictly_iff.mp hless).le⟩
  · rw [isLessStrictly_iff] at hless
    exact Or.inr ⟨rfl, not_lt.mp hless⟩

/-- One turn of `topDown`: the place is exchanged with its smallest child. -/
theorem DownTo.exch (hdown : DownTo key h i) {c : ℕ} (hi : 1 ≤ i) (hc : c / 2 = i) (hlt : c < h.size)
    (hmin : ∀ d, d / 2 = i → d < h.size → key (get h c) ≤ key (get h d)) (hle : key (get h c) ≤ key (get h i)) :
    DownTo key (exch h i c) c := by
  have hget := get_exch (h := h) (a := i) (b := c) (by omega) hlt
  refine ⟨fun j h2 hsize hne => ?_, fun _ d hd hsize => ?_⟩
  · rw [size_exch] at hsize
    rw [hget, hget, if_neg hne]
    by_cases hjc : j = c
    · rw [if_pos (by omega), if_neg (by omega), if_pos hjc]
      exact hle
    by_cases hji : j = i
    · rw [if_neg (by omega), if_pos hji, hji]
      exact hdown.grand (by omega) c hc hlt
    rw [if_neg hji, if_neg hjc]
    by_cases hjp : j / 2 = i
    · rw [if_pos hjp]
      exact hmin j hjp hsize
    · rw [if_neg hjp]
      exact hdown.except j h2 hsize hjp
  · rw [size_exch] at hsize
    rw [hget, hget, if_pos (by omega), if_neg (by omega), if_neg (by omega), ← hd]
    exact hdown.except d (by omega) hsize (by omega)

theorem DownTo.ordered (hdown : DownTo key h i)
    (hi : ∀ c, 2 ≤ c → c / 2 = i → c < h.size → key (get h i) ≤ key (get h c)) : Ordered key h := by
  intro j h2 hsize
  by_cases hj : j / 2 = i
  · rw [hj]
    exact hi j h2 hj hsize
  · exact hdown.except j h2 hsize hj

/-- **`topDown` repairs the order.** -/
theorem ordered_topDown {fuel : ℕ} (hdown : DownTo key h i) (hi : 1 ≤ i) (hfuel : h.size ≤ fuel + i)
    (hpos : 1 ≤ fuel) : Ordered key (topDown key fuel h i) := by
  induction fuel generalizing h i with
  | zero => omega
  | succ fuel ih =>
    rw [topDown]
    dsimp only
    split_ifs with hright hless hbottom hleft hless
    · -- both children are greater
      rw [isLessStrictly_iff] at hless
      refine hdown.ordered fun c h2 hc hsize => ?_
      have hcases : c = i * 2 ∨ c = i * 2 + 1 := by omega
      rcases smallest_cases key h (i * 2) (i * 2 + 1) with ⟨hs, hle⟩ | ⟨hs, hle⟩
      all_goals
        rw [hs] at hless
        rcases hcases with rfl | rfl
      · exact hless.le
      · exact hless.le.trans hle
      · exact hless.le.trans hle
      · exact hless.le
    · rw [isLessStrictly_iff, not_lt] at hless
      have hsmall : ∀ d, d / 2 = i → d < h.size →
          key (get h (smallest key h (i * 2) (i * 2 + 1))) ≤ key (get h d) := by
        intro d hd hsize
        have hcases : d = i * 2 ∨ d = i * 2 + 1 := by omega
        rcases smallest_cases key h (i * 2) (i * 2 + 1) with ⟨hs, hle⟩ | ⟨hs, hle⟩
        all_goals
          rw [hs]
          rcases hcases with rfl | rfl
        · exact le_rfl
        · exact hle
        · exact hle
        · exact le_rfl
      have hplace : smallest key h (i * 2) (i * 2 + 1) = i * 2 ∨
          smallest key h (i * 2) (i * 2 + 1) = i * 2 + 1 :=
        (smallest_cases key h (i * 2) (i * 2 + 1)).imp And.left And.left
      generalize smallest key h (i * 2) (i * 2 + 1) = c at *
      refine ih (hdown.exch hi (by omega) (by omega) hsmall hless) (by omega) ?_ (by omega)
      rw [size_exch]
      omega
    · exact hdown.ordered fun c _ hc hsize => by omega
    · exact hdown.ordered fun c _ hc hsize => by omega
    · rw [isLessStrictly_iff] at hless
      refine hdown.ordered fun c _ hc hsize => ?_
      rw [show c = i * 2 by omega]
      exact hless.le
    · rw [isLessStrictly_iff, not_lt] at hless
      have hexch := hdown.exch (c := i * 2) hi (by omega) (by omega) (fun d hd hsize => by
        rw [show d = i * 2 by omega]) hless
      refine hexch.ordered fun c _ hc hsize => ?_
      rw [size_exch] at hsize
      omega

/-- What the last element leaves behind when it takes the place `i`. -/
theorem get_exch_pop (hlt : i < h.size) {j : ℕ} (hj : j < h.size - 1) :
    get (exch h i (h.size - 1)).pop j = if j = i then get h (h.size - 1) else get h j := by
  rw [get_pop (by rwa [size_exch]), get_exch hlt (by omega)]
  split_ifs with hji hlast
  · rfl
  · omega
  · rfl

omit [Inhabited α] in
theorem size_exch_pop : (exch h i (h.size - 1)).pop.size = h.size - 1 := by
  rw [Array.size_pop, size_exch]

/-- **The order after a removal.** The last element takes the place of the one that is removed, and is moved away
from the root only. -/
theorem ordered_removeAt_iff (hord : Ordered key h) (hi : 1 ≤ i) (hlt : i < h.size) {fuel : ℕ}
    (hfuel : h.size ≤ fuel) :
    Ordered key (topDown key fuel (exch h i (h.size - 1)).pop i) ↔
      i = 1 ∨ i = h.size - 1 ∨ key (get h (i / 2)) ≤ key (get h (h.size - 1)) := by
  have hget := fun {j} => get_exch_pop (j := j) hlt
  have hsize := size_exch_pop (h := h) (i := i)
  constructor
  · intro hafter
    by_contra hnot
    push Not at hnot
    obtain ⟨h1, hlast, hless⟩ := hnot
    -- the element is smaller than all below the place, so it stays there
    have hchild : ∀ c, c / 2 = i → c < h.size - 1 → key (get h (h.size - 1)) < key (get h c) := by
      intro c hc hcs
      refine hless.trans_le ?_
      calc key (get h (i / 2)) ≤ key (get h i) := hord i (by omega) hlt
        _ = key (get h (c / 2)) := by rw [hc]
        _ ≤ key (get h c) := hord c (by omega) (by omega)
    have hstay : topDown key fuel (exch h i (h.size - 1)).pop i = (exch h i (h.size - 1)).pop := by
      cases fuel with
      | zero => rfl
      | succ fuel =>
        have hlessThan : ∀ c, c / 2 = i → c < h.size - 1 →
            isLessStrictly key (exch h i (h.size - 1)).pop i c = true := by
          intro c hc hcs
          rw [isLessStrictly_iff, hget (by omega), if_pos rfl, hget hcs, if_neg (by omega)]
          exact hchild c hc hcs
        rw [topDown]
        dsimp only
        rw [hsize]
        split_ifs with hright hst hbottom hleft hl
        · rfl
        · refine absurd (hlessThan _ ?_ ?_) hst
          all_goals
            rcases smallest_cases key (exch h i (h.size - 1)).pop (i * 2) (i * 2 + 1) with ⟨hs, -⟩ | ⟨hs, -⟩
            all_goals
              rw [hs]
              omega
        · rfl
        · rfl
        · rfl
        · exact absurd (hlessThan (i * 2) (by omega) (by omega)) hl
    rw [hstay] at hafter
    have hpair := hafter i (by omega) (by rw [hsize]; omega)
    rw [hget (by omega), hget (by omega), if_neg (by omega), if_pos rfl] at hpair
    exact absurd hpair (not_le.mpr hless)
  · intro hcond
    refine ordered_topDown ⟨fun j h2 hj hne => ?_, fun h2 c hc hcs => ?_⟩ hi (by rw [hsize]; omega) (by omega)
    · rw [hsize] at hj
      rw [hget (by omega), hget hj, if_neg hne]
      by_cases hji : j = i
      · rw [if_pos hji]
        subst hji
        exact (hcond.resolve_left (by omega)).resolve_left (by omega)
      · rw [if_neg hji]
        exact hord j h2 (by omega)
    · rw [hsize] at hcs
      rw [hget (by omega), hget hcs, if_neg (by omega), if_neg (by omega)]
      calc key (get h (i / 2)) ≤ key (get h i) := hord i h2 hlt
        _ = key (get h (c / 2)) := by rw [hc]
        _ ≤ key (get h c) := hord c (by omega) (by omega)

end Order

end HeapLib
