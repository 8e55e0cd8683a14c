import Ns3Ndn.Lib.Pool

/-!
# Linked lists that share their tails

Lists of nodes in a heap. Every node counts the pointers to it, which are in the heads of lists and in other nodes. The
place of a pointer is the head of a list (`Sum.inl`) or a node (`Sum.inr`), and the nodes of a list up to the first
one that is counted twice belong to this list alone.
-/

set_option linter.unusedSectionVars false

namespace LinkLib

open Function

variable {ι α : Type}

structure Node (α : Type) where
  count : ℕ
  val : α

/-- The heap: nodes, pointers, and the next free address. -/
structure Links (ι α : Type) where
  node : ℕ → Option (Node α) := fun _ => none
  next : ι ⊕ ℕ → Option ℕ := fun _ => none
  fresh : ℕ := 0

/-! ## Paths -/

def Path (next : ι ⊕ ℕ → Option ℕ) : ι ⊕ ℕ → List ℕ → Prop
  | loc, [] => next loc = none
  | loc, a :: as => next loc = some a ∧ Path next (.inr a) as

/-- The pointer after some nodes. -/
def lastLoc (loc : ι ⊕ ℕ) : List ℕ → ι ⊕ ℕ
  | [] => loc
  | a :: as => lastLoc (.inr a) as

theorem lastLoc_concat (loc : ι ⊕ ℕ) (as : List ℕ) (a : ℕ) : lastLoc loc (as ++ [a]) = .inr a := by
  induction as generalizing loc with
  | nil => rfl
  | cons b as ih => exact ih (.inr b)

section Path

variable {next next' : ι ⊕ ℕ → Option ℕ} {loc : ι ⊕ ℕ} {as as' bs : List ℕ}

theorem Path.unique (h : Path next loc as) (h' : Path next loc as') : as = as' := by
  induction as generalizing loc as' with
  | nil =>
    cases as' with
    | nil => rfl
    | cons a' as' => exact absurd (h.symm.trans h'.1) (Option.some_ne_none a').symm
  | cons a as ih =>
    cases as' with
    | nil => exact absurd (h'.symm.trans h.1) (Option.some_ne_none a).symm
    | cons a' as' =>
      obtain rfl := Option.some.inj (h.1.symm.trans h'.1)
      rw [ih h.2 h'.2]

theorem Path.head_mem (h : Path next loc as) {a : ℕ} (ha : next loc = some a) : a ∈ as := by
  cases as with
  | nil => exact absurd (ha.symm.trans h) (Option.some_ne_none a)
  | cons b as =>
    obtain rfl := Option.some.inj (ha.symm.trans h.1)
    exact List.mem_cons_self

theorem Path.drop (h : Path next loc (as ++ bs)) : Path next (lastLoc loc as) bs := by
  induction as generalizing loc with
  | nil => exact h
  | cons a as ih => exact ih h.2

theorem Path.congr {loc' : ι ⊕ ℕ} (h : Path next loc as) (hloc : next' loc' = next loc)
    (has : ∀ a ∈ as, next' (.inr a) = next (.inr a)) : Path next' loc' as := by
  induction as generalizing loc loc' with
  | nil => exact hloc.trans h
  | cons a as ih =>
    exact ⟨hloc.trans h.1, ih h.2 (has a List.mem_cons_self) fun b hb => has b (List.mem_cons_of_mem a hb)⟩

/-- **A list has no node twice.** -/
theorem Path.nodup (h : Path next loc as) : as.Nodup := by
  induction as generalizing loc with
  | nil => exact List.nodup_nil
  | cons a as ih =>
    refine List.nodup_cons.mpr ⟨fun ha => ?_, ih h.2⟩
    obtain ⟨l, r, rfl⟩ := List.append_of_mem ha
    have hagain : Path next (.inr a) r := by
      have hdrop := h.2.drop
      exact hdrop.2
    have heq := congrArg List.length (h.2.unique hagain)
    simp only [List.length_append, List.length_cons] at heq
    omega

theorem lastLoc_mem (loc : ι ⊕ ℕ) (as : List ℕ) : lastLoc loc as = loc ∨ ∃ a ∈ as, lastLoc loc as = .inr a := by
  induction as generalizing loc with
  | nil => exact .inl rfl
  | cons a as ih =>
    refine .inr ?_
    rcases ih (.inr a) with h | ⟨b, hb, h⟩
    · exact ⟨a, List.mem_cons_self, h⟩
    · exact ⟨b, List.mem_cons_of_mem a hb, h⟩

theorem Path.exists_pointer (h : Path next loc as) {a : ℕ} (ha : a ∈ as) :
    ∃ loc', next loc' = some a ∧ (loc' = loc ∨ ∃ b ∈ as, loc' = .inr b) := by
  induction as generalizing loc with
  | nil => cases ha
  | cons b as ih =>
    rcases List.mem_cons.mp ha with rfl | ha
    · exact ⟨loc, h.1, .inl rfl⟩
    · obtain ⟨loc', hnext, hloc'⟩ := ih h.2 ha
      refine ⟨loc', hnext, .inr ?_⟩
      rcases hloc' with rfl | ⟨c, hc, rfl⟩
      · exact ⟨b, List.mem_cons_self, rfl⟩
      · exact ⟨c, List.mem_cons_of_mem b hc, rfl⟩

/-- **A change at one pointer** leaves the nodes before it. -/
theorem Path.splice (h : Path next loc (as ++ bs)) (hnot : ∀ a ∈ as, loc ≠ .inr a)
    (hsame : ∀ x, x ≠ lastLoc loc as → (x = loc ∨ ∃ a ∈ as, x = .inr a) → next' x = next x)
    (htail : Path next' (lastLoc loc as) as') : Path next' loc (as ++ as') := by
  induction as generalizing loc with
  | nil => exact htail
  | cons a as ih =>
    have hnodup := List.nodup_cons.mp h.nodup
    have hne : loc ≠ lastLoc loc (a :: as) := by
      rcases lastLoc_mem (ι := ι) (.inr a) as with heq | ⟨b, hb, heq⟩
      · rw [lastLoc, heq]
        exact hnot a List.mem_cons_self
      · rw [lastLoc, heq]
        exact hnot b (List.mem_cons_of_mem a hb)
    refine ⟨(hsame loc hne (.inl rfl)).trans h.1, ih h.2 ?_ ?_ htail⟩
    · intro b hb heq
      obtain rfl := Sum.inr.inj heq
      exact hnodup.1 (List.mem_append_left _ hb)
    · rintro x hx (rfl | ⟨b, hb, rfl⟩)
      · exact hsame _ hx (.inr ⟨a, List.mem_cons_self, rfl⟩)
      · exact hsame _ hx (.inr ⟨b, List.mem_cons_of_mem a hb, rfl⟩)

end Path

/-! ## Pointers -/

section Refs

variable [Fintype ι] [DecidableEq ι]

/-- The places of pointers, with nodes below an address. -/
def locs (ι : Type) [Fintype ι] (fresh : ℕ) : Finset (ι ⊕ ℕ) := Finset.univ.disjSum (Finset.range fresh)

/-- The number of pointers to a node. -/
def refs (next : ι ⊕ ℕ → Option ℕ) (fresh a : ℕ) : ℕ := ((locs ι fresh).filter fun loc => next loc = some a).card

variable {next : ι ⊕ ℕ → Option ℕ} {fresh : ℕ}

/-- **A pointer is changed.** -/
theorem refs_update (next : ι ⊕ ℕ → Option ℕ) {loc : ι ⊕ ℕ} (hloc : loc ∈ locs ι fresh) (v : Option ℕ) (a : ℕ) :
    refs (update next loc v) fresh a + (if next loc = some a then 1 else 0) =
      refs next fresh a + (if v = some a then 1 else 0) := PoolLib.card_filter_update hloc next v (some a)

theorem refs_succ (hnone : next (.inr fresh) = none) (a : ℕ) : refs next (fresh + 1) a = refs next fresh a := by
  have hlocs : locs ι (fresh + 1) = insert (.inr fresh) (locs ι fresh) := by
    ext x
    rcases x with i | b
    · simp [locs]
    · simp only [locs, Finset.mem_disjSum, Finset.mem_univ, Finset.mem_range, Finset.mem_insert, Sum.inr.injEq]
      simp
      omega
  rw [refs, refs, hlocs, Finset.filter_insert, if_neg (by simp [hnone])]

theorem refs_pos {loc : ι ⊕ ℕ} {a : ℕ} (hloc : loc ∈ locs ι fresh) (h : next loc = some a) : 0 < refs next fresh a :=
  Finset.card_pos.mpr ⟨loc, Finset.mem_filter.mpr ⟨hloc, h⟩⟩

theorem eq_of_refs_eq_one {a : ℕ} {x y : ι ⊕ ℕ} (h : refs next fresh a = 1) (hx : x ∈ locs ι fresh)
    (hxa : next x = some a) (hy : y ∈ locs ι fresh) (hya : next y = some a) : x = y :=
  Finset.card_le_one.mp h.le x (Finset.mem_filter.mpr ⟨hx, hxa⟩) y (Finset.mem_filter.mpr ⟨hy, hya⟩)

end Refs

/-! ## The heap -/

namespace Links

variable [DecidableEq ι] (s : Links ι α)

def count (a : ℕ) : ℕ := (s.node a).elim 0 Node.count

def val (a : ℕ) : Option α := (s.node a).map Node.val

def setNext (loc : ι ⊕ ℕ) (v : Option ℕ) : Links ι α := { s with next := update s.next loc v }

def setVal (a : ℕ) (v : α) : Links ι α :=
  { s with node := update s.node a ((s.node a).map fun nd => { nd with val := v }) }

def dec (a : ℕ) : Links ι α :=
  { s with node := update s.node a ((s.node a).map fun nd => { nd with count := nd.count - 1 }) }

/-- One pointer more to what a pointer points at. -/
def inc (v : Option ℕ) : Links ι α :=
  v.elim s fun a => { s with node := update s.node a ((s.node a).map fun nd => { nd with count := nd.count + 1 }) }

/-- A new node. -/
def alloc (v : α) (n : Option ℕ) : Links ι α where
  node := update s.node s.fresh (some ⟨1, v⟩)
  next := update s.next (.inr s.fresh) n
  fresh := s.fresh + 1

def free (a : ℕ) : Links ι α := { s with node := update s.node a none, next := update s.next (.inr a) none }

@[simp] theorem next_setNext (loc : ι ⊕ ℕ) (v : Option ℕ) : (s.setNext loc v).next = update s.next loc v := rfl
@[simp] theorem next_setVal (a : ℕ) (v : α) : (s.setVal a v).next = s.next := rfl
@[simp] theorem next_dec (a : ℕ) : (s.dec a).next = s.next := rfl
@[simp] theorem next_inc (v : Option ℕ) : (s.inc v).next = s.next := by cases v <;> rfl
@[simp] theorem next_alloc (v : α) (n : Option ℕ) : (s.alloc v n).next = update s.next (.inr s.fresh) n := rfl
@[simp] theorem next_free (a : ℕ) : (s.free a).next = update s.next (.inr a) none := rfl

@[simp] theorem fresh_setNext (loc : ι ⊕ ℕ) (v : Option ℕ) : (s.setNext loc v).fresh = s.fresh := rfl
@[simp] theorem fresh_setVal (a : ℕ) (v : α) : (s.setVal a v).fresh = s.fresh := rfl
@[simp] theorem fresh_dec (a : ℕ) : (s.dec a).fresh = s.fresh := rfl
@[simp] theorem fresh_inc (v : Option ℕ) : (s.inc v).fresh = s.fresh := by cases v <;> rfl
@[simp] theorem fresh_alloc (v : α) (n : Option ℕ) : (s.alloc v n).fresh = s.fresh + 1 := rfl
@[simp] theorem fresh_free (a : ℕ) : (s.free a).fresh = s.fresh := rfl

@[simp] theorem val_setNext (loc : ι ⊕ ℕ) (v : Option ℕ) : (s.setNext loc v).val = s.val := rfl

@[simp] theorem val_dec (a : ℕ) : (s.dec a).val = s.val := by
  funext b
  by_cases h : b = a
  · subst h
    simp [val, dec, Function.comp_def]
  · simp [val, dec, update_of_ne h]

@[simp] theorem val_inc (v : Option ℕ) : (s.inc v).val = s.val := by
  cases v with
  | none => rfl
  | some a =>
    funext b
    by_cases h : b = a
    · subst h
      simp [val, inc, Function.comp_def]
    · simp [val, inc, update_of_ne h]

@[simp] theorem val_alloc (v : α) (n : Option ℕ) : (s.alloc v n).val = update s.val s.fresh (some v) := by
  funext b
  by_cases h : b = s.fresh
  · subst h
    simp [val, alloc]
  · simp [val, alloc, update_of_ne h]

@[simp] theorem val_free (a : ℕ) : (s.free a).val = update s.val a none := by
  funext b
  by_cases h : b = a
  · subst h
    simp [val, free]
  · simp [val, free, update_of_ne h]

theorem val_setVal {a : ℕ} (h : s.val a ≠ none) (v : α) : (s.setVal a v).val = update s.val a (some v) := by
  obtain ⟨w, hw⟩ := Option.ne_none_iff_exists'.mp h
  obtain ⟨nd, hnd, -⟩ := Option.map_eq_some_iff.mp hw
  funext b
  by_cases hb : b = a
  · subst hb
    simp [val, setVal, hnd]
  · simp [val, setVal, update_of_ne hb]

@[simp] theorem count_setNext (loc : ι ⊕ ℕ) (v : Option ℕ) : (s.setNext loc v).count = s.count := rfl

@[simp] theorem count_setVal (a : ℕ) (v : α) : (s.setVal a v).count = s.count := by
  funext b
  by_cases h : b = a
  · subst h
    cases hnd : s.node b <;> simp [count, setVal, hnd]
  · simp [count, setVal, update_of_ne h]

theorem count_dec (a b : ℕ) : (s.dec a).count b = s.count b - if a = b then 1 else 0 := by
  by_cases h : a = b
  · subst h
    cases hnd : s.node a <;> simp [count, dec, hnd]
  · simp [count, dec, update_of_ne (Ne.symm h), h]

theorem count_inc {v : Option ℕ} (h : ∀ a, v = some a → s.val a ≠ none) (b : ℕ) :
    (s.inc v).count b = s.count b + if v = some b then 1 else 0 := by
  cases v with
  | none => rfl
  | some a =>
    have ha : s.node a ≠ none := fun hnone => h a rfl (by rw [val, hnone, Option.map_none])
    obtain ⟨nd, hnd⟩ := Option.ne_none_iff_exists'.mp ha
    by_cases hb : a = b
    · subst hb
      simp [count, inc, hnd]
    · simp [count, inc, update_of_ne (Ne.symm hb), hb]

theorem count_alloc (v : α) (n : Option ℕ) : (s.alloc v n).count = update s.count s.fresh 1 := by
  funext b
  by_cases h : b = s.fresh
  · subst h
    simp [count, alloc]
  · simp [count, alloc, update_of_ne h]

theorem count_free (a : ℕ) : (s.free a).count = update s.count a 0 := by
  funext b
  by_cases h : b = a
  · subst h
    simp [count, free]
  · simp [count, free, update_of_ne h]

theorem count_of_val_eq_none {a : ℕ} (h : s.val a = none) : s.count a = 0 := by
  rw [count, Option.map_eq_none_iff.mp h, Option.elim_none]

end Links

/-! ## Lists -/

section Lists

variable [Fintype ι] [DecidableEq ι]

/-- The counts are right, pointers are to nodes, and the nodes are below the next free address. -/
structure Links.Counted (s : Links ι α) : Prop where
  count : ∀ a, s.count a = refs s.next s.fresh a
  live : ∀ loc a, s.next loc = some a → s.val a ≠ none
  dead : ∀ a, s.val a = none → s.next (.inr a) = none
  fresh : ∀ a, s.fresh ≤ a → s.val a = none

structure Links.Inv (s : Links ι α) (path : ι → List ℕ) (vals : ι → List α) : Prop extends s.Counted where
  hasPath : ∀ i, Path s.next (.inl i) (path i)
  hasVals : ∀ i, (path i).map s.val = (vals i).map some

variable {s s' : Links ι α} {path : ι → List ℕ} {vals : ι → List α} {i : ι} {as bs bs' : List ℕ} {a : ℕ}

namespace Links

theorem Counted.mem_locs (h : s.Counted) {loc : ι ⊕ ℕ} (hloc : s.next loc = some a) : loc ∈ locs ι s.fresh := by
  rcases loc with i | b
  · simp [locs]
  · have hb : b < s.fresh := by
      by_contra hb
      have hnone := h.dead b (h.fresh b (not_lt.mp hb))
      exact Option.some_ne_none a (hloc.symm.trans hnone)
    simpa [locs] using hb

theorem Inv.live_of_mem (h : s.Inv path vals) (ha : a ∈ path i) : s.val a ≠ none := by
  obtain ⟨loc, hloc, -⟩ := (h.hasPath i).exists_pointer ha
  exact h.live loc a hloc

theorem Inv.lt_fresh_of_mem (h : s.Inv path vals) (ha : a ∈ path i) : a < s.fresh := by
  by_contra hlt
  exact h.live_of_mem ha (h.fresh a (not_lt.mp hlt))

theorem Inv.length_path_le (h : s.Inv path vals) (i : ι) : (path i).length ≤ s.fresh := by
  have hsub : (path i).toFinset ⊆ Finset.range s.fresh := by
    intro a ha
    exact Finset.mem_range.mpr (h.lt_fresh_of_mem (List.mem_toFinset.mp ha))
  have hcard := Finset.card_le_card hsub
  rwa [List.toFinset_card_of_nodup (h.hasPath i).nodup, Finset.card_range] at hcard

theorem Counted.notMem_of_path (h : s.Counted) {loc loc' : ι ⊕ ℕ} {cs : List ℕ} (hp : Path s.next loc (as ++ bs))
    (hown : ∀ a ∈ as, s.count a = 1) (hcs : Path s.next loc' cs) (hloc : loc ≠ loc') (hlocs : ∀ c ∈ cs, loc ≠ .inr c)
    (hlists : ∀ a, loc' ≠ .inr a) : ∀ a ∈ as, a ∉ cs := by
  induction as generalizing loc with
  | nil => simp
  | cons a as ih =>
    have ha : a ∉ cs := by
      intro ha
      obtain ⟨x, hx, hplace⟩ := hcs.exists_pointer ha
      have hone : refs s.next s.fresh a = 1 := (h.count a).symm.trans (hown a List.mem_cons_self)
      have hsame := eq_of_refs_eq_one hone (h.mem_locs hp.1) hp.1 (h.mem_locs hx) hx
      rcases hplace with rfl | ⟨c, hc, rfl⟩
      · exact hloc hsame
      · exact hlocs c hc hsame
    have hrest := ih hp.2 (fun b hb => hown b (List.mem_cons_of_mem a hb)) (hlists a).symm (fun c hc heq => ha (by
      rwa [Sum.inr.inj heq]))
    intro b hb
    rcases List.mem_cons.mp hb with rfl | hb
    · exact ha
    · exact hrest b hb

/-- **Nodes that belong to one list** are in no other. -/
theorem Inv.notMem_of_own (h : s.Inv path vals) (hpath : path i = as ++ bs) (hown : ∀ a ∈ as, s.count a = 1) {j : ι}
    (hj : j ≠ i) : ∀ a ∈ as, a ∉ path j := by
  have hp := h.hasPath i
  rw [hpath] at hp
  refine h.toCounted.notMem_of_path hp hown (h.hasPath j) ?_ ?_ ?_
  · exact fun heq => hj (Sum.inl.inj heq).symm
  · exact fun c _ => Sum.inl_ne_inr
  · exact fun a => Sum.inl_ne_inr

theorem Inv.lastLoc_ne (h : s.Inv path vals) (hpath : path i = as ++ bs) (hown : ∀ a ∈ as, s.count a = 1) {j : ι}
    (hj : j ≠ i) : (.inl j ≠ lastLoc (.inl i) as) ∧ ∀ b ∈ path j, .inr b ≠ lastLoc (.inl i) as := by
  rcases lastLoc_mem (.inl i) as with heq | ⟨a, ha, heq⟩
  · rw [heq]
    exact ⟨fun hji => hj (Sum.inl.inj hji), fun b _ => Sum.inr_ne_inl⟩
  · rw [heq]
    refine ⟨Sum.inl_ne_inr, fun b hb hba => ?_⟩
    obtain rfl := Sum.inr.inj hba
    exact h.notMem_of_own hpath hown hj b ha hb

/-- **A change behind the nodes of one list**: no other list sees it. -/
theorem Inv.edit (h : s.Inv path vals) (hpath : path i = as ++ bs) (hown : ∀ a ∈ as, s.count a = 1)
    {vs ws ws' : List α} (hvals : vals i = vs ++ ws) (hlen : vs.length = as.length) (hs' : s'.Counted)
    (hnext : ∀ x, x ≠ lastLoc (.inl i) as → s'.next x = s.next x ∨ ∃ a, x = .inr a ∧ a ∉ as ∧ ∀ j ≠ i, a ∉ path j)
    (hval : ∀ a, s'.val a = s.val a ∨ (a ∉ as ∧ ∀ j ≠ i, a ∉ path j))
    (htail : Path s'.next (lastLoc (.inl i) as) bs') (hws : bs'.map s'.val = ws'.map some) :
    s'.Inv (update path i (as ++ bs')) (update vals i (vs ++ ws')) where
  toCounted := hs'
  hasPath j := by
    by_cases hj : j = i
    · subst hj
      have hp := h.hasPath j
      rw [hpath] at hp
      rw [update_self]
      refine hp.splice (fun a _ => Sum.inl_ne_inr) ?_ htail
      intro x hx hplace
      refine (hnext x hx).resolve_right ?_
      rintro ⟨a, rfl, ha, -⟩
      rcases hplace with hplace | ⟨b, hb, hab⟩
      · exact Sum.inr_ne_inl hplace
      · obtain rfl := Sum.inr.inj hab
        exact ha hb
    · rw [update_of_ne hj]
      have hne := h.lastLoc_ne hpath hown hj
      refine (h.hasPath j).congr ((hnext _ hne.1).resolve_right ?_) fun b hb => (hnext _ (hne.2 b hb)).resolve_right ?_
      · rintro ⟨a, ha, -⟩
        exact Sum.inl_ne_inr ha
      · rintro ⟨a, ha, -, hnot⟩
        obtain rfl := Sum.inr.inj ha
        exact hnot j hj hb
  hasVals j := by
    by_cases hj : j = i
    · subst hj
      have hv := h.hasVals j
      rw [hpath, hvals, List.map_append, List.map_append] at hv
      have hfirst := (List.append_inj hv (by simpa using hlen.symm)).1
      rw [update_self, update_self, List.map_append, List.map_append, hws, ← hfirst]
      congr 1
      refine List.map_congr_left fun a ha => (hval a).resolve_right ?_
      exact fun hnot => hnot.1 ha
    · rw [update_of_ne hj, update_of_ne hj, ← h.hasVals j]
      refine List.map_congr_left fun a ha => (hval a).resolve_right ?_
      exact fun hnot => hnot.2 j hj ha

/-! ### Operations -/

section

variable (h : s.Inv path vals)

include h

theorem Inv.lastLoc_eq (hpath : path i = as ++ bs) : Path s.next (lastLoc (.inl i) as) bs := by
  have hp := h.hasPath i
  rw [hpath] at hp
  exact hp.drop

theorem Inv.mem_locs_lastLoc (hpath : path i = as ++ bs) : lastLoc (.inl i) as ∈ locs ι s.fresh := by
  rcases lastLoc_mem (.inl i) as with heq | ⟨a, ha, heq⟩
  · rw [heq]
    simp [locs]
  · rw [heq]
    have hlt : a < s.fresh := h.lt_fresh_of_mem (i := i) (hpath ▸ List.mem_append_left _ ha)
    simpa [locs] using hlt

theorem Inv.lastLoc_ne_fresh (hpath : path i = as ++ bs) : lastLoc (.inl i) as ≠ .inr s.fresh := by
  intro heq
  have hmem := h.mem_locs_lastLoc hpath
  rw [heq] at hmem
  simp [locs] at hmem

theorem Inv.inr_ne_lastLoc (hpath : path i = as ++ bs) {b : ℕ} (hb : b ∈ bs) : .inr b ≠ lastLoc (.inl i) as := by
  have hnodup : (as ++ bs).Nodup := hpath ▸ (h.hasPath i).nodup
  intro heq
  rcases lastLoc_mem (.inl i) as with hl | ⟨c, hc, hl⟩
  · exact Sum.inr_ne_inl (heq.trans hl)
  · obtain rfl := Sum.inr.inj (heq.trans hl)
    exact (List.nodup_append.mp hnodup).2.2 b hc b hb rfl

theorem Inv.live_lastLoc (hpath : path i = as ++ bs) {b : ℕ} (hb : .inr b = lastLoc (.inl i) as) : s.val b ≠ none := by
  rcases lastLoc_mem (.inl i) as with hl | ⟨c, hc, hl⟩
  · exact absurd (hb.trans hl) Sum.inr_ne_inl
  · obtain rfl := Sum.inr.inj (hb.trans hl)
    exact h.live_of_mem (i := i) (hpath ▸ List.mem_append_left _ hc)

end

section Split

variable {vs ws : List α} {v : α}

theorem Inv.notMem_split (h : s.Inv path vals) (hpath : path i = as ++ a :: bs) : a ∉ as ∧ a ∉ bs := by
  have hnodup : (as ++ a :: bs).Nodup := hpath ▸ (h.hasPath i).nodup
  obtain ⟨-, hcons, hdisj⟩ := List.nodup_append.mp hnodup
  exact ⟨fun hmem => hdisj a hmem a List.mem_cons_self rfl, (List.nodup_cons.mp hcons).1⟩

theorem Inv.notMem_other (h : s.Inv path vals) (hpath : path i = as ++ a :: bs) (hown : ∀ b ∈ as, s.count b = 1)
    (ha : s.count a = 1) : ∀ j ≠ i, a ∉ path j := by
  intro j hj
  have hconcat : path i = (as ++ [a]) ++ bs := by rw [hpath, List.append_assoc, List.singleton_append]
  refine h.notMem_of_own hconcat ?_ hj a (by simp)
  intro b hb
  rcases List.mem_append.mp hb with hb | hb
  · exact hown b hb
  · rwa [List.mem_singleton.mp hb]

theorem Inv.vals_split (h : s.Inv path vals) (hpath : path i = as ++ a :: bs) (hvals : vals i = vs ++ v :: ws)
    (hlen : vs.length = as.length) : s.val a = some v ∧ bs.map s.val = ws.map some := by
  have hv := h.hasVals i
  rw [hpath, hvals, List.map_append, List.map_append] at hv
  have hrest := (List.append_inj hv (by simpa using hlen.symm)).2
  exact List.cons.inj hrest

theorem map_update_of_notMem {f : ℕ → Option α} {o : Option α} (h : a ∉ bs) : bs.map (update f a o) = bs.map f :=
  List.map_congr_left fun _ hb => update_of_ne (ne_of_mem_of_not_mem hb h) _ _

variable (h : s.Inv path vals)

include h

theorem Inv.setVal (hpath : path i = as ++ a :: bs) (hown : ∀ b ∈ as, s.count b = 1) (ha : s.count a = 1)
    (hvals : vals i = vs ++ v :: ws) (hlen : vs.length = as.length) (w : α) :
    (s.setVal a w).Inv path (update vals i (vs ++ w :: ws)) := by
  have hlive : s.val a ≠ none := h.live_of_mem (i := i) (by simp [hpath])
  have hval := s.val_setVal hlive w
  have hcounted : (s.setVal a w).Counted := by
    refine ⟨?_, ?_, ?_, ?_⟩
    · simpa using h.count
    · intro loc b hb
      rw [hval]
      by_cases hba : b = a
      · simp [hba]
      · rw [update_of_ne hba]
        exact h.live loc b hb
    · intro b hb
      refine h.dead b ?_
      rw [hval] at hb
      by_cases hba : b = a
      · simp [hba] at hb
      · rwa [update_of_ne hba] at hb
    · intro b hb
      rw [hval, update_of_ne]
      · exact h.fresh b hb
      · rintro rfl
        exact hlive (h.fresh b hb)
  obtain ⟨has, hbs⟩ := h.notMem_split hpath
  suffices hedit : (s.setVal a w).Inv (update path i (as ++ a :: bs)) (update vals i (vs ++ w :: ws)) by
    rwa [← hpath, update_eq_self] at hedit
  refine h.edit hpath hown hvals hlen hcounted (fun _ _ => .inl rfl) ?_ (h.lastLoc_eq hpath) ?_
  · intro b
    rw [hval]
    by_cases hba : b = a
    · exact .inr ⟨hba ▸ has, hba ▸ h.notMem_other hpath hown ha⟩
    · exact .inl (update_of_ne hba _ _)
  · rw [hval, List.map_cons, update_self, map_update_of_notMem hbs, (h.vals_split hpath hvals hlen).2, List.map_cons]

/-- **A node that belongs to one list** is taken out of it. -/
theorem Inv.unlink (hpath : path i = as ++ a :: bs) (hown : ∀ b ∈ as, s.count b = 1) (ha : s.count a = 1)
    (hvals : vals i = vs ++ v :: ws) (hlen : vs.length = as.length) :
    ((s.setNext (lastLoc (.inl i) as) (s.next (.inr a))).free a).Inv (update path i (as ++ bs))
      (update vals i (vs ++ ws)) := by
  have hloc := h.mem_locs_lastLoc hpath
  have hat := h.lastLoc_eq hpath
  have hnodup := h.notMem_split hpath
  have hne := h.inr_ne_lastLoc hpath List.mem_cons_self
  have hlt : a < s.fresh := h.lt_fresh_of_mem (i := i) (by simp [hpath])
  have hmem : .inr a ∈ locs ι s.fresh := by simpa [locs] using hlt
  have hcounted : ((s.setNext (lastLoc (.inl i) as) (s.next (.inr a))).free a).Counted := by
    refine ⟨?_, ?_, ?_, ?_⟩
    · intro b
      have hfirst := refs_update s.next hloc (s.next (.inr a)) b
      have hsecond := refs_update (update s.next (lastLoc (.inl i) as) (s.next (.inr a))) hmem none b
      have hb := h.count b
      rw [hat.1] at hfirst
      rw [update_of_ne hne] at hsecond
      simp only [count_free, count_setNext, next_free, next_setNext, fresh_free, fresh_setNext, Option.some.injEq,
        reduceCtorEq, if_false, add_zero] at hfirst hsecond ⊢
      by_cases hba : b = a
      · subst hba
        rw [update_self]
        rw [if_pos rfl] at hfirst
        omega
      · rw [update_of_ne hba]
        rw [if_neg (Ne.symm hba)] at hfirst
        omega
    · intro x b hx
      simp only [next_free, next_setNext, val_free, val_setNext] at hx ⊢
      have hxa : x ≠ .inr a := by
        rintro rfl
        simp at hx
      rw [update_of_ne hxa] at hx
      have hold : ∃ y, s.next y = some b ∧ y ≠ lastLoc (.inl i) as := by
        by_cases hxl : x = lastLoc (.inl i) as
        · rw [hxl, update_self] at hx
          exact ⟨.inr a, hx, hne⟩
        · rw [update_of_ne hxl] at hx
          exact ⟨x, hx, hxl⟩
      obtain ⟨y, hy, hyl⟩ := hold
      rw [update_of_ne]
      · exact h.live y b hy
      · rintro rfl
        exact hyl (eq_of_refs_eq_one ((h.count b).symm.trans ha) (h.mem_locs hy) hy hloc hat.1)
    · intro b hb
      simp only [next_free, next_setNext, val_free, val_setNext] at hb ⊢
      by_cases hba : b = a
      · rw [hba, update_self]
      · rw [update_of_ne hba] at hb
        rw [update_of_ne (fun heq => hba (Sum.inr.inj heq)), update_of_ne]
        · exact h.dead b hb
        · exact fun heq => h.live_lastLoc hpath heq hb
    · intro b hb
      simp only [val_free, val_setNext]
      by_cases hba : b = a
      · rw [hba, update_self]
      · rw [update_of_ne hba]
        exact h.fresh b hb
  refine h.edit hpath hown hvals hlen hcounted ?_ ?_ ?_ ?_
  · intro x hx
    by_cases hxa : x = .inr a
    · exact .inr ⟨a, hxa, hnodup.1, h.notMem_other hpath hown ha⟩
    · refine .inl ?_
      rw [next_free, update_of_ne hxa, next_setNext, update_of_ne hx]
  · intro b
    by_cases hba : b = a
    · exact .inr (hba ▸ ⟨hnodup.1, h.notMem_other hpath hown ha⟩)
    · refine .inl ?_
      rw [val_free, update_of_ne hba, val_setNext]
  · refine hat.2.congr ?_ fun b hb => ?_
    · rw [next_free, update_of_ne (Ne.symm hne), next_setNext, update_self]
    · have hba : b ≠ a := ne_of_mem_of_not_mem hb hnodup.2
      rw [next_free, update_of_ne (fun heq => hba (Sum.inr.inj heq)), next_setNext, update_of_ne]
      exact h.inr_ne_lastLoc hpath (List.mem_cons_of_mem a hb)
  · rw [val_free, val_setNext, map_update_of_notMem hnodup.2]
    exact (h.vals_split hpath hvals hlen).2

/-- **A node that is counted twice** is left out of one list. -/
theorem Inv.skip (hpath : path i = as ++ a :: bs) (hown : ∀ b ∈ as, s.count b = 1) (hvals : vals i = vs ++ v :: ws)
    (hlen : vs.length = as.length) :
    (((s.setNext (lastLoc (.inl i) as) (s.next (.inr a))).dec a).inc (s.next (.inr a))).Inv (update path i (as ++ bs))
      (update vals i (vs ++ ws)) := by
  have hloc := h.mem_locs_lastLoc hpath
  have hat := h.lastLoc_eq hpath
  have hcounted :
      (((s.setNext (lastLoc (.inl i) as) (s.next (.inr a))).dec a).inc (s.next (.inr a))).Counted := by
    refine ⟨?_, ?_, ?_, ?_⟩
    · intro b
      have hrefs := refs_update s.next hloc (s.next (.inr a)) b
      have hb := h.count b
      have hpos := refs_pos (h.mem_locs hat.1) hat.1
      rw [hat.1] at hrefs
      rw [count_inc _ (by simpa using h.live (.inr a)), count_dec, count_setNext, next_inc, next_dec, next_setNext,
        fresh_inc, fresh_dec, fresh_setNext]
      simp only [Option.some.injEq] at hrefs
      by_cases hba : a = b
      · subst hba
        rw [if_pos rfl] at hrefs ⊢
        omega
      · rw [if_neg hba] at hrefs ⊢
        omega
    · intro x b hx
      simp only [next_inc, next_dec, next_setNext, val_inc, val_dec, val_setNext] at hx ⊢
      by_cases hxl : x = lastLoc (.inl i) as
      · rw [hxl, update_self] at hx
        exact h.live (.inr a) b hx
      · rw [update_of_ne hxl] at hx
        exact h.live x b hx
    · intro b hb
      simp only [next_inc, next_dec, next_setNext, val_inc, val_dec, val_setNext] at hb ⊢
      rw [update_of_ne]
      · exact h.dead b hb
      · exact fun heq => h.live_lastLoc hpath heq hb
    · simpa using h.fresh
  refine h.edit hpath hown hvals hlen hcounted ?_ ?_ ?_ ?_
  · intro x hx
    simp [update_of_ne hx]
  · simp
  · refine hat.2.congr (by simp) fun b hb => ?_
    have hne := h.inr_ne_lastLoc hpath (List.mem_cons_of_mem a hb)
    simp [update_of_ne hne]
  · simpa using (h.vals_split hpath hvals hlen).2

/-- **A new node in one list**, before nodes `cs` that this list has already. -/
theorem Inv.place (hpath : path i = as ++ bs) (hown : ∀ b ∈ as, s.count b = 1) (hvals : vals i = vs ++ ws)
    (hlen : vs.length = as.length) {ploc : ι ⊕ ℕ} {cs : List ℕ} {us : List α} {w : α} (hcs : Path s.next ploc cs)
    (hsub : cs ⊆ bs) (hus : cs.map s.val = us.map some)
    (hnext : s'.next = update (update s.next (.inr s.fresh) (s.next ploc)) (lastLoc (.inl i) as) (some s.fresh))
    (hval : s'.val = update s.val s.fresh (some w)) (hfresh : s'.fresh = s.fresh + 1)
    (hcount : ∀ b, s'.count b + (if s.next (lastLoc (.inl i) as) = some b then 1 else 0) =
      s.count b + (if s.fresh = b then 1 else 0) + (if s.next ploc = some b then 1 else 0)) :
    
    s'.Inv (update path i (as ++ s.fresh :: cs)) (update vals i (vs ++ w :: us)) := by
  have hloc := h.lastLoc_ne_fresh hpath
  have hmem : lastLoc (.inl i) as ∈ locs ι (s.fresh + 1) := by
    have hold := h.mem_locs_lastLoc hpath
    simp only [locs, Finset.mem_disjSum, Finset.mem_univ, Finset.mem_range] at hold ⊢
    rcases hold with hold | ⟨b, hb, heq⟩
    · exact .inl hold
    · exact .inr ⟨b, by omega, heq⟩
  have hnew : .inr s.fresh ∈ locs ι (s.fresh + 1) := by simp [locs]
  have hnone := h.dead s.fresh (h.fresh s.fresh le_rfl)
  have hne : ∀ b ∈ cs, b ≠ s.fresh := by
    intro b hb
    exact (h.lt_fresh_of_mem (i := i) (hpath ▸ List.mem_append_right _ (hsub hb))).ne
  have hcounted : s'.Counted := by
    refine ⟨?_, ?_, ?_, ?_⟩
    · intro b
      have hfirst := refs_update s.next hnew (s.next ploc) b
      have hsecond := refs_update (update s.next (.inr s.fresh) (s.next ploc)) hmem (some s.fresh) b
      have hb := h.count b
      have hc := hcount b
      rw [hnone, refs_succ hnone] at hfirst
      rw [update_of_ne hloc] at hsecond
      simp only [Option.some.injEq, reduceCtorEq, if_false] at hfirst hsecond
      rw [hnext, hfresh]
      omega
    · intro x b hx
      rw [hnext] at hx
      rw [hval]
      by_cases hbf : b = s.fresh
      · simp [hbf]
      rw [update_of_ne hbf]
      by_cases hxl : x = lastLoc (.inl i) as
      · rw [hxl, update_self] at hx
        exact absurd (Option.some.inj hx).symm hbf
      rw [update_of_ne hxl] at hx
      by_cases hxf : x = .inr s.fresh
      · rw [hxf, update_self] at hx
        exact h.live _ b hx
      · rw [update_of_ne hxf] at hx
        exact h.live _ b hx
    · intro b hb
      rw [hval] at hb
      have hbf : b ≠ s.fresh := by
        rintro rfl
        simp at hb
      rw [update_of_ne hbf] at hb
      rw [hnext, update_of_ne, update_of_ne (fun heq => hbf (Sum.inr.inj heq))]
      · exact h.dead b hb
      · exact fun heq => h.live_lastLoc hpath heq hb
    · intro b hb
      rw [hval, update_of_ne (by omega)]
      exact h.fresh b (by omega)
  have hunused : s.fresh ∉ as ∧ ∀ j ≠ i, s.fresh ∉ path j := by
    refine ⟨fun hf => ?_, fun j _ hf => lt_irrefl _ (h.lt_fresh_of_mem hf)⟩
    exact lt_irrefl _ (h.lt_fresh_of_mem (i := i) (hpath ▸ List.mem_append_left _ hf))
  refine h.edit hpath hown hvals hlen hcounted ?_ ?_ ⟨?_, ?_⟩ ?_
  · intro x hx
    by_cases hxf : x = .inr s.fresh
    · exact .inr ⟨s.fresh, hxf, hunused⟩
    · rw [hnext, update_of_ne hx, update_of_ne hxf]
      exact .inl rfl
  · intro b
    rw [hval]
    by_cases hbf : b = s.fresh
    · exact .inr (hbf ▸ hunused)
    · exact .inl (update_of_ne hbf _ _)
  · rw [hnext, update_self]
  · refine hcs.congr ?_ fun b hb => ?_
    · rw [hnext, update_of_ne (Ne.symm hloc), update_self]
    · rw [hnext, update_of_ne (h.inr_ne_lastLoc hpath (hsub hb)), update_of_ne]
      exact fun heq => hne b hb (Sum.inr.inj heq)
  · rw [hval, List.map_cons, update_self, map_update_of_notMem (fun hf => hne _ hf rfl), hus, List.map_cons]

theorem Inv.push (i : ι) (w : α) :
    ((s.alloc w (s.next (.inl i))).setNext (.inl i) (some s.fresh)).Inv (update path i (s.fresh :: path i))
      (update vals i (w :: vals i)) := by
  refine h.place (List.nil_append _).symm (by simp) (List.nil_append _).symm rfl (h.hasPath i) (fun _ hb => hb) (h.hasVals i) rfl ?_ rfl ?_
  · simp
  · intro b
    have hzero := s.count_of_val_eq_none (h.fresh s.fresh le_rfl)
    rw [count_setNext, count_alloc, lastLoc]
    by_cases hb : b = s.fresh
    · subst hb
      rw [update_self, hzero, if_pos rfl, zero_add]
    · rw [update_of_ne hb, if_neg (Ne.symm hb), add_zero]

theorem Inv.count_copy (hpath : path i = as ++ a :: bs) (w : α) (b : ℕ) :
    ((((s.dec a).alloc w (s.next (.inr a))).inc (s.next (.inr a))).setNext (lastLoc (.inl i) as) (some s.fresh)).count b
        + (if a = b then 1 else 0) =
      s.count b + (if s.fresh = b then 1 else 0) + (if s.next (.inr a) = some b then 1 else 0) := by
  have hat := h.lastLoc_eq hpath
  have hlive : ∀ c, s.next (.inr a) = some c → ((s.dec a).alloc w (s.next (.inr a))).val c ≠ none := by
    intro c hc
    rw [val_alloc, val_dec, fresh_dec]
    by_cases hcf : c = s.fresh
    · simp [hcf]
    · rw [update_of_ne hcf]
      exact h.live _ c hc
  have hzero := s.count_of_val_eq_none (h.fresh s.fresh le_rfl)
  have hpos := refs_pos (h.mem_locs hat.1) hat.1
  have ha := h.count a
  have hlt : a < s.fresh := h.lt_fresh_of_mem (i := i) (by simp [hpath])
  rw [count_setNext, count_inc _ hlive, count_alloc, fresh_dec]
  by_cases hb : b = s.fresh
  · subst hb
    rw [update_self, hzero, if_pos rfl, if_neg hlt.ne, zero_add, add_zero]
  · rw [update_of_ne hb, count_dec, if_neg (Ne.symm hb)]
    by_cases hab : a = b
    · subst hab
      rw [if_pos rfl]
      omega
    · rw [if_neg hab]
      omega

/-- **A copy** of a node that is counted twice takes its place in one list. -/
theorem Inv.copy (hpath : path i = as ++ a :: bs) (hown : ∀ b ∈ as, s.count b = 1) (hvals : vals i = vs ++ v :: ws)
    (hlen : vs.length = as.length) (w : α) :
    ((((s.dec a).alloc w (s.next (.inr a))).inc (s.next (.inr a))).setNext (lastLoc (.inl i) as) (some s.fresh)).Inv
      (update path i (as ++ s.fresh :: bs)) (update vals i (vs ++ w :: ws)) := by
  have hat := h.lastLoc_eq hpath
  refine h.place hpath hown hvals hlen hat.2 (fun b hb => List.mem_cons_of_mem a hb)
    (h.vals_split hpath hvals hlen).2 ?_ ?_ ?_ ?_
  · simp
  · simp
  · simp
  · intro b
    rw [hat.1]
    simp only [Option.some.injEq]
    exact h.count_copy hpath w b

theorem Inv.release (hpath : path i = a :: bs) :
    ((s.dec a).setNext (.inl i) none).Inv (update path i []) (update vals i []) := by
  have hp := h.hasPath i
  rw [hpath] at hp
  have hcounted : ((s.dec a).setNext (.inl i) none).Counted := by
    refine ⟨?_, ?_, ?_, ?_⟩
    · intro b
      have hrefs := refs_update s.next (h.mem_locs hp.1) none b
      have hb := h.count b
      rw [hp.1] at hrefs
      rw [count_setNext, count_dec, next_setNext, next_dec, fresh_setNext, fresh_dec]
      simp only [Option.some.injEq, reduceCtorEq, if_false] at hrefs
      omega
    · intro x b hx
      simp only [next_setNext, next_dec, val_setNext, val_dec] at hx ⊢
      by_cases hxi : x = .inl i
      · simp [hxi] at hx
      · rw [update_of_ne hxi] at hx
        exact h.live x b hx
    · intro b hb
      simp only [next_setNext, next_dec, val_setNext, val_dec] at hb ⊢
      rw [update_of_ne Sum.inr_ne_inl]
      exact h.dead b hb
    · simpa using h.fresh
  refine h.edit (List.nil_append _).symm (by simp) (List.nil_append _).symm rfl hcounted ?_ ?_ ?_ rfl
  · intro x hx
    simp only [next_setNext, next_dec]
    exact .inl (update_of_ne hx _ _)
  · simp
  · simp [Path, lastLoc]

theorem Inv.share (hpath : path i = []) (j : ι) :
    ((s.setNext (.inl i) (s.next (.inl j))).inc (s.next (.inl j))).Inv (update path i (path j))
      (update vals i (vals j)) := by
  have hp := h.hasPath i
  rw [hpath] at hp
  have hmem : .inl i ∈ locs ι s.fresh := by simp [locs]
  have hcounted : ((s.setNext (.inl i) (s.next (.inl j))).inc (s.next (.inl j))).Counted := by
    refine ⟨?_, ?_, ?_, ?_⟩
    · intro b
      have hrefs := refs_update s.next hmem (s.next (.inl j)) b
      have hb := h.count b
      have hnone : s.next (.inl i) = none := hp
      rw [hnone] at hrefs
      rw [count_inc _ (by simpa using h.live (.inl j)), count_setNext, next_inc, next_setNext, fresh_inc, fresh_setNext]
      simp only [reduceCtorEq, if_false] at hrefs
      omega
    · intro x b hx
      simp only [next_inc, next_setNext, val_inc, val_setNext] at hx ⊢
      by_cases hxi : x = .inl i
      · rw [hxi, update_self] at hx
        exact h.live _ b hx
      · rw [update_of_ne hxi] at hx
        exact h.live x b hx
    · intro b hb
      simp only [next_inc, next_setNext, val_inc, val_setNext] at hb ⊢
      rw [update_of_ne Sum.inr_ne_inl]
      exact h.dead b hb
    · simpa using h.fresh
  refine h.edit (List.nil_append _).symm (by simp) (List.nil_append _).symm rfl hcounted ?_ ?_ ?_ ?_
  · intro x hx
    simp only [next_inc, next_setNext]
    exact .inl (update_of_ne hx _ _)
  · simp
  · refine (h.hasPath j).congr (by simp [lastLoc]) fun b _ => ?_
    simp
  · simpa using h.hasVals j

end Split

end Links

end Lists

end LinkLib
