import Mathlib

/-!
# Doubly linked lists in a heap

Cells of a heap that are linked by `prev` and `next`. `Seg h prev p l last q` says that from `p` the cells
of `l` follow one another, that the first points back to `prev` and the last, which is `last`, on to `q`;
`Chain` is a segment that ends. The operations fail where a program would follow a null pointer or break an
assertion.

* `seg_append`, `seg_frame`: segments compose, and depend on their own cells only;
* **`push_spec`**, **`unlink_spec`**: a cell is put in front of a chain, and taken out of one.
-/

namespace ChainLib

variable {α : Type}

structure Cell (α : Type) where
  val : α
  prev : Option ℕ := none
  next : Option ℕ := none

abbrev Heap (α : Type) := ℕ → Option (Cell α)

def Heap.modify (h : Heap α) (a : ℕ) (f : Cell α → Cell α) : Heap α :=
  Function.update h a ((h a).map f)

section Modify

variable (h : Heap α) (a : ℕ) (f : Cell α → Cell α)

theorem modify_self {c : Cell α} (hc : h a = some c) : h.modify a f a = some (f c) := by
  rw [Heap.modify, Function.update_self, hc, Option.map_some]

theorem modify_of_ne {x : ℕ} (hx : x ≠ a) : h.modify a f x = h x := Function.update_of_ne hx ..

theorem modify_val (hf : ∀ c, (f c).val = c.val) (x : ℕ) :
    (h.modify a f x).map Cell.val = (h x).map Cell.val := by
  by_cases hx : x = a
  · subst hx
    rw [Heap.modify, Function.update_self, Option.map_map]
    exact congrArg (Option.map · (h x)) (funext hf)
  · rw [modify_of_ne h a f hx]

end Modify

/-! ## Segments -/

def Seg (h : Heap α) : (prev p : Option ℕ) → List ℕ → (last q : Option ℕ) → Prop
  | prev, p, [], last, q => prev = last ∧ p = q
  | prev, p, a :: l, last, q =>
    p = some a ∧ ∃ c, h a = some c ∧ c.prev = prev ∧ Seg h (some a) c.next l last q

def Chain (h : Heap α) (p : Option ℕ) (l : List ℕ) : Prop := ∃ last, Seg h none p l last none

variable {h h' : Heap α} {prev p last q : Option ℕ} {l : List ℕ} {a : ℕ}

theorem seg_frame (hl : ∀ a ∈ l, h' a = h a) (hseg : Seg h prev p l last q) :
    Seg h' prev p l last q := by
  induction l generalizing prev p with
  | nil => exact hseg
  | cons a l ih =>
    obtain ⟨rfl, c, hc, hprev, hrest⟩ := hseg
    refine ⟨rfl, c, (hl a List.mem_cons_self).trans hc, hprev, ?_⟩
    exact ih (fun b hb => hl b (List.mem_cons_of_mem _ hb)) hrest

theorem seg_append {l₁ l₂ : List ℕ} :
    Seg h prev p (l₁ ++ l₂) last q ↔ ∃ m r, Seg h prev p l₁ m r ∧ Seg h m r l₂ last q := by
  induction l₁ generalizing prev p with
  | nil =>
    constructor
    · intro hseg
      exact ⟨prev, p, ⟨rfl, rfl⟩, hseg⟩
    · rintro ⟨m, r, ⟨rfl, rfl⟩, hseg⟩
      exact hseg
  | cons a l₁ ih =>
    constructor
    · rintro ⟨rfl, c, hc, hprev, hrest⟩
      obtain ⟨m, r, hseg, hseg'⟩ := ih.mp hrest
      exact ⟨m, r, ⟨rfl, c, hc, hprev, hseg⟩, hseg'⟩
    · rintro ⟨m, r, ⟨rfl, c, hc, hprev, hseg⟩, hseg'⟩
      exact ⟨rfl, c, hc, hprev, ih.mpr ⟨m, r, hseg, hseg'⟩⟩

theorem seg_singleton : Seg h prev p [a] last q ↔
    p = some a ∧ last = some a ∧ ∃ c, h a = some c ∧ c.prev = prev ∧ c.next = q := by
  constructor
  · rintro ⟨rfl, c, hc, hprev, rfl, hnext⟩
    exact ⟨rfl, rfl, c, hc, hprev, hnext⟩
  · rintro ⟨rfl, rfl, c, hc, hprev, hnext⟩
    exact ⟨rfl, c, hc, hprev, rfl, hnext⟩

theorem seg_isSome (hseg : Seg h prev p l last q) : ∀ a ∈ l, (h a).isSome := by
  induction l generalizing prev p with
  | nil => simp
  | cons a l ih =>
    obtain ⟨rfl, c, hc, -, hrest⟩ := hseg
    intro b hb
    rcases List.mem_cons.mp hb with rfl | hb
    · rw [hc]
      rfl
    · exact ih hrest b hb

/-- Let the first cell of a segment point back to another cell. -/
theorem seg_setPrev {b : ℕ} (prev' : Option ℕ) (hb : b ∉ l)
    (hseg : Seg h prev p (b :: l) last q) :
    Seg (h.modify b fun c => { c with prev := prev' }) prev' p (b :: l) last q := by
  obtain ⟨rfl, c, hc, -, hrest⟩ := hseg
  refine ⟨rfl, _, modify_self h b _ hc, rfl, seg_frame (fun x hx => ?_) hrest⟩
  exact modify_of_ne h b _ (ne_of_mem_of_not_mem hx hb)

theorem seg_setNext {b : ℕ} (q' : Option ℕ) (hb : b ∉ l) (hseg : Seg h prev p (l ++ [b]) last q) :
    Seg (h.modify b fun c => { c with next := q' }) prev p (l ++ [b]) last q' := by
  obtain ⟨m, r, hfront, hlast⟩ := seg_append.mp hseg
  obtain ⟨rfl, rfl, c, hc, hprev, -⟩ := seg_singleton.mp hlast
  refine seg_append.mpr ⟨m, some b, seg_frame (fun x hx => ?_) hfront, ?_⟩
  · exact modify_of_ne h b _ (ne_of_mem_of_not_mem hx hb)
  · exact seg_singleton.mpr ⟨rfl, rfl, _, modify_self h b _ hc, hprev, rfl⟩

/-! ## Lists linked one way -/

/-- The cells of `l` follow one another from `p` on. -/
def Links (h : Heap α) : (p : Option ℕ) → List ℕ → Prop
  | p, [] => p = none
  | p, a :: l => p = some a ∧ ∃ c, h a = some c ∧ Links h c.next l

theorem links_of_seg (hseg : Seg h prev p l last none) : Links h p l := by
  induction l generalizing prev p with
  | nil => exact hseg.2
  | cons a l ih =>
    obtain ⟨rfl, c, hc, -, hrest⟩ := hseg
    exact ⟨rfl, c, hc, ih hrest⟩

theorem Chain.links (hchain : Chain h p l) : Links h p l := by
  obtain ⟨last, hseg⟩ := hchain
  exact links_of_seg hseg

theorem Chain.isSome (hchain : Chain h p l) : ∀ a ∈ l, (h a).isSome := by
  obtain ⟨last, hseg⟩ := hchain
  exact seg_isSome hseg

theorem Chain.frame (hl : ∀ a ∈ l, h' a = h a) (hchain : Chain h p l) : Chain h' p l := by
  obtain ⟨last, hseg⟩ := hchain
  exact ⟨last, seg_frame hl hseg⟩

/-- Put a cell in front of the chain at `head`, where no cell may point back from. -/
def push (h : Heap α) (head : Option ℕ) (a : ℕ) : Option (Heap α) := do
  let _ ← h a
  let h := h.modify a fun c => { c with prev := none, next := head }
  match head with
  | none => some h
  | some b =>
    let c ← h b
    if c.prev = none then some (h.modify b fun c => { c with prev := some a }) else none

/-- **A cell is put in front of a chain.** -/
theorem push_spec {c : Cell α} (hchain : Chain h p l) (hnodup : l.Nodup) (ha : a ∉ l)
    (hc : h a = some c) :
    ∃ h', push h p a = some h' ∧ Chain h' (some a) (a :: l) ∧ (∀ x ∉ a :: l, h' x = h x) ∧
      ∀ x, (h' x).map Cell.val = (h x).map Cell.val := by
  obtain ⟨last, hseg⟩ := hchain
  generalize hh₁ : h.modify a (fun c => { c with prev := none, next := p }) = h₁
  have hself : h₁ a = some { c with prev := none, next := p } := hh₁ ▸ modify_self h a _ hc
  have hother : ∀ x, x ≠ a → h₁ x = h x := fun x hx => hh₁ ▸ modify_of_ne h a _ hx
  have hval : ∀ x, (h₁ x).map Cell.val = (h x).map Cell.val := hh₁ ▸ modify_val h a _ fun _ => rfl
  have hseg₁ : Seg h₁ none p l last none :=
    seg_frame (fun x hx => hother x (ne_of_mem_of_not_mem hx ha)) hseg
  unfold push
  rw [hc, hh₁]
  cases l with
  | nil =>
    obtain ⟨rfl, rfl⟩ := hseg₁
    refine ⟨h₁, rfl, ⟨some a, rfl, _, hself, rfl, rfl, rfl⟩, fun x hx => hother x ?_, hval⟩
    simpa using hx
  | cons b l =>
    have hb := (List.nodup_cons.mp hnodup).1
    obtain ⟨rfl, d, hd, hprev, -⟩ := id hseg₁
    have hne : a ≠ b := fun hab => ha (hab ▸ List.mem_cons_self)
    refine ⟨h₁.modify b fun c => { c with prev := some a }, ?_, ⟨last, ?_⟩, fun x hx => ?_, fun x => ?_⟩
    · change (do let c ← h₁ b; if c.prev = none then _ else none) = _
      rw [hd]
      exact if_pos hprev
    · refine ⟨rfl, _, (modify_of_ne _ _ _ hne).trans hself, rfl, seg_setPrev _ hb hseg₁⟩
    · rw [List.mem_cons, List.mem_cons, not_or, not_or] at hx
      rw [modify_of_ne _ _ _ hx.2.1, hother x hx.1]
    · rw [← hval]
      refine modify_val h₁ b _ ?_ x
      exact fun _ => rfl

/-! ## Taking a cell out -/

def unlinkPrev (h : Heap α) (head : Option ℕ) (a : ℕ) (c : Cell α) : Option (Heap α × Option ℕ) :=
  match c.prev with
  | some b => do
    let d ← h b
    if d.next = some a then some (h.modify b fun d => { d with next := c.next }, head) else none
  | none => if head = some a then some (h, c.next) else none

/-- The cell after `a` points back to what precedes `a`. -/
def unlinkNext (h : Heap α) (a : ℕ) (c : Cell α) : Option (Heap α) :=
  match c.next with
  | some b => do
    let d ← h b
    if d.prev = some a then some (h.modify b fun d => { d with prev := c.prev }) else none
  | none => some h

def unlink (h : Heap α) (head : Option ℕ) (a : ℕ) : Option (Heap α × Option ℕ) := do
  let c ← h a
  let (h, head) ← unlinkPrev h head a c
  let h ← unlinkNext h a c
  some (h.modify a fun c => { c with prev := none, next := none }, head)

variable {c : Cell α}

theorem unlinkPrev_spec (hseg : Seg h none p l c.prev (some a)) (hnodup : l.Nodup) :
    ∃ h' p', unlinkPrev h p a c = some (h', p') ∧ Seg h' none p' l c.prev c.next ∧
      (∀ x ∉ l, h' x = h x) ∧ ∀ x, (h' x).map Cell.val = (h x).map Cell.val := by
  unfold unlinkPrev
  rcases List.eq_nil_or_concat l with rfl | ⟨l, b, rfl⟩
  · obtain ⟨hprev, rfl⟩ := hseg
    rw [← hprev]
    exact ⟨h, c.next, if_pos rfl, ⟨rfl, rfl⟩, fun _ _ => rfl, fun _ => rfl⟩
  · rw [List.concat_eq_append] at hseg hnodup ⊢
    have hb : b ∉ l := fun hb => List.disjoint_of_nodup_append hnodup hb List.mem_cons_self
    obtain ⟨m, r, -, hlast⟩ := seg_append.mp hseg
    obtain ⟨-, hprev, d, hd, -, hnext⟩ := seg_singleton.mp hlast
    have hset := seg_setNext c.next hb hseg
    rw [hprev] at hset ⊢
    refine ⟨h.modify b fun d => { d with next := c.next }, p, ?_, hset, fun x hx => ?_, ?_⟩
    · change (do let d ← h b; if d.next = some a then _ else none) = _
      rw [hd]
      exact if_pos hnext
    · exact modify_of_ne h b _ fun hxb => hx (by simp [hxb])
    · exact modify_val h b _ fun _ => rfl

theorem unlinkNext_spec (hseg : Seg h (some a) c.next l last none) (hnodup : l.Nodup) :
    ∃ h', unlinkNext h a c = some h' ∧ (∃ last', Seg h' c.prev c.next l last' none) ∧
      (∀ x ∉ l, h' x = h x) ∧ ∀ x, (h' x).map Cell.val = (h x).map Cell.val := by
  unfold unlinkNext
  cases l with
  | nil =>
    obtain ⟨-, hnext⟩ := hseg
    rw [hnext]
    exact ⟨h, rfl, ⟨c.prev, rfl, rfl⟩, fun _ _ => rfl, fun _ => rfl⟩
  | cons b l =>
    have hset := seg_setPrev c.prev (List.nodup_cons.mp hnodup).1 hseg
    obtain ⟨hnext, d, hd, hprev, -⟩ := hseg
    rw [hnext] at hset ⊢
    refine ⟨h.modify b fun d => { d with prev := c.prev }, ?_, ⟨last, hset⟩, fun x hx => ?_, ?_⟩
    · change (do let d ← h b; if d.prev = some a then _ else none) = _
      rw [hd]
      exact if_pos hprev
    · exact modify_of_ne h b _ fun hxb => hx (hxb ▸ List.mem_cons_self)
    · exact modify_val h b _ fun _ => rfl

/-- **A cell is taken out of a chain.** -/
theorem unlink_spec {l₁ l₂ : List ℕ} (hchain : Chain h p (l₁ ++ a :: l₂))
    (hnodup : (l₁ ++ a :: l₂).Nodup) :
    ∃ h' p', unlink h p a = some (h', p') ∧ Chain h' p' (l₁ ++ l₂) ∧
      (∀ x ∉ l₁ ++ a :: l₂, h' x = h x) ∧
      ∀ x, (h' x).map Cell.val = (h x).map Cell.val := by
  obtain ⟨last, hseg⟩ := hchain
  obtain ⟨m, r, hfront, rfl, c, hc, rfl, hback⟩ := seg_append.mp hseg
  obtain ⟨hnodup₁, hnodup₂, hdisj⟩ := List.nodup_append'.mp hnodup
  obtain ⟨ha₂, hnodup₂⟩ := List.nodup_cons.mp hnodup₂
  have ha₁ : a ∉ l₁ := fun ha => hdisj ha List.mem_cons_self
  have hdisj₂ : ∀ x ∈ l₂, x ∉ l₁ := fun x hx hx' => hdisj hx' (List.mem_cons_of_mem _ hx)
  -- first the cell before, then the cell after
  obtain ⟨h₁, p', heq₁, hfront₁, hframe₁, hval₁⟩ := unlinkPrev_spec hfront hnodup₁
  have hback₁ := seg_frame (fun x hx => hframe₁ x (hdisj₂ x hx)) hback
  obtain ⟨h₂, heq₂, ⟨last', hback₂⟩, hframe₂, hval₂⟩ := unlinkNext_spec hback₁ hnodup₂
  have hfront₂ := seg_frame (fun x hx => hframe₂ x fun hx' => hdisj₂ x hx' hx) hfront₁
  refine ⟨h₂.modify a fun c => { c with prev := none, next := none }, p', ?_, ⟨last', ?_⟩, fun x hx => ?_,
    fun x => ?_⟩
  · unfold unlink
    rw [hc]
    change (do let (h, head) ← unlinkPrev h p a c; _) = _
    rw [heq₁]
    change (do let h ← unlinkNext h₁ a c; _) = _
    rw [heq₂]
    rfl
  · refine seg_frame (fun x hx => modify_of_ne h₂ a _ ?_) (seg_append.mpr ⟨_, _, hfront₂, hback₂⟩)
    rintro rfl
    exact (List.mem_append.mp hx).elim ha₁ ha₂
  · simp only [List.mem_append, List.mem_cons, not_or] at hx
    rw [modify_of_ne h₂ a _ hx.2.1, hframe₂ x hx.2.2, hframe₁ x hx.1]
  · rw [← hval₁, ← hval₂]
    refine modify_val h₂ a _ ?_ x
    exact fun _ => rfl

end ChainLib
