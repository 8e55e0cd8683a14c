import Ns3Ndn.Table.NameTree

/-!
# Enumeration of a subtree

`PartialEnumerationImpl` of `NFD/daemon/table/name-tree-iterator.cpp`: an iterator that visits the nodes under
a prefix in preorder. A selector says of each node whether it is visited and whether its children are looked
at. The iterator keeps only the node it is at, and finds its way by the pointers to parents and children.

* `Visits`, **`Built.partialEnumerate_spec`**: the iterator comes to its end, and visits each node it should just once, in
  preorder.
-/

namespace Ns3Ndn.NameTree

open OrdLib LpmLib

/-! ## The iterator -/

/-- A selector of nodes and of subtrees: visit the node, look at its children. -/
abbrev EntrySubTreeSelector := Name → NtEntry → Bool × Bool

/-- What the loop over the siblings of a node comes to. -/
inductive SiblingResult where
  | visit (name : Name) (wantChildren : Bool)
  | descend (name : Name)
  | noMore

section Iterator

variable (nt : NameTree) (pred : EntrySubTreeSelector)

/-- The selector at a node. -/
def want (name : Name) : Bool × Bool :=
  match nt.find? name with
  | none => (false, false)
  | some e => pred name e

/-- The loop over the siblings that follow a node. -/
def nextSibling : List Name → SiblingResult
  | [] => .noMore
  | sibling :: siblings =>
    match nt.want pred sibling with
    | (true, wantChildren) => .visit sibling wantChildren
    | (false, true) => .descend sibling
    | (false, false) => nextSibling siblings

def siblingsAfter (siblings : List Name) (name : Name) : List Name :=
  (siblings.dropWhile (· ≠ name)).tail

/-- The loop of `advance`: the next node to visit, with the state of the iterator there. It fails at a null
pointer or when the fuel is used up. -/
def advanceLoop (ref : Name) : (fuel : ℕ) → (entry : Name) → (wantChildren : Bool) →
    Option (Option (Name × Bool))
  | 0, _, _ => none
  | fuel + 1, entry, wantChildren =>
    match nt.find? entry with
    | none => none
    | some e =>
      match wantChildren, e.children with
      | true, child :: _ =>
        match nt.want pred child with
        | (true, wantChildren) => some (some (child, wantChildren))
        | (false, wantChildren) => advanceLoop ref fuel child wantChildren
      | _, _ =>
        if entry = ref then some none
        else
          match e.parent with
          | none => none
          | some parent =>
            match nt.find? parent with
            | none => none
            | some p =>
              match nt.nextSibling pred (siblingsAfter p.children entry) with
              | .visit sibling wantChildren => some (some (sibling, wantChildren))
              | .descend sibling => advanceLoop ref fuel sibling true
              | .noMore => advanceLoop ref fuel parent false

def visitsAfter (ref : Name) (fuel : ℕ) : (n : ℕ) → (entry : Name) → (state : Bool) → Option (List Name)
  | 0, _, _ => none
  | n + 1, entry, state => do
    match ← nt.advanceLoop pred ref fuel entry state with
    | none => some []
    | some (next, state) => do
      let rest ← visitsAfter ref fuel n next state
      some (next :: rest)

/-- Enough turns for every loop of the iterator. -/
def enumerationFuel : ℕ := 2 * nt.toList.length + 1

def partialEnumerate (name : Name) : Option (List Name) :=
  match nt.findExactMatch name name.length with
  | none => some []
  | some ref =>
    match nt.want pred ref with
    | (true, wantChildren) => do
      let rest ← nt.visitsAfter pred ref nt.enumerationFuel nt.enumerationFuel ref wantChildren
      some (ref :: rest)
    | (false, wantChildren) =>
      nt.visitsAfter pred ref nt.enumerationFuel nt.enumerationFuel ref wantChildren

end Iterator

/-! ## The traversal by recursion -/

def childrenOf (nt : NameTree) (name : Name) : List Name :=
  ((nt.find? name).map NtEntry.children).getD []

/-- The nodes in preorder, over `d` levels. -/
def preorderTo (nt : NameTree) (w : Name → Bool × Bool) : (d : ℕ) → Name → List Name
  | 0, _ => []
  | d + 1, name =>
    (if (w name).1 then [name] else []) ++
      if (w name).2 then (nt.childrenOf name).flatMap (preorderTo nt w d) else []

def preorder (nt : NameTree) (w : Name → Bool × Bool) (name : Name) : List Name :=
  nt.preorderTo w (maxDepth + 1 - name.length) name

variable {nt : NameTree} {w : Name → Bool × Bool} {pred : EntrySubTreeSelector}

theorem Shaped.mem_childrenOf (h : nt.Shaped) {name : Name} (hname : (nt.find? name).isSome) {c : Name} :
    c ∈ nt.childrenOf name ↔ (nt.find? c).isSome ∧ c ≠ [] ∧ c.dropLast = name := by
  obtain ⟨e, he⟩ := Option.isSome_iff_exists.mp hname
  rw [childrenOf, he]
  exact h.children he c

theorem Shaped.nodup_childrenOf (h : nt.Shaped) (name : Name) : (nt.childrenOf name).Nodup := by
  rw [childrenOf]
  cases he : nt.find? name with
  | none => exact List.nodup_nil
  | some e => exact h.nodup he

theorem length_of_dropLast {c name : Name} (hne : c ≠ []) (h : c.dropLast = name) :
    c.length = name.length + 1 := by
  have hpos := List.length_pos_iff.mpr hne
  rw [← h, List.length_dropLast]
  omega

/-- **The traversal of a node** is the node and then its children. -/
theorem Shaped.preorder_eq (h : nt.Shaped) {name : Name} (hname : (nt.find? name).isSome) :
    nt.preorder w name =
      (if (w name).1 then [name] else []) ++
        if (w name).2 then (nt.childrenOf name).flatMap (nt.preorder w) else [] := by
  have hdepth := h.depth hname
  have hlevels : maxDepth + 1 - name.length = (maxDepth - name.length) + 1 := by omega
  rw [preorder, hlevels, preorderTo]
  congr 2
  refine List.flatMap_congr fun c hc => ?_
  obtain ⟨-, hne, hparent⟩ := (h.mem_childrenOf hname).mp hc
  rw [preorder, length_of_dropLast hne hparent, Nat.add_sub_add_right]

theorem Shaped.induction_children (h : nt.Shaped) {P : Name → Prop}
    (step : ∀ name, (nt.find? name).isSome → (∀ c ∈ nt.childrenOf name, P c) → P name) (name : Name)
    (hname : (nt.find? name).isSome) : P name := by
  induction hd : maxDepth - name.length generalizing name with
  | zero =>
    refine step name hname fun c hc => ?_
    -- a child of a deepest node would be too deep
    obtain ⟨hc, hne, hparent⟩ := (h.mem_childrenOf hname).mp hc
    have hdepth := h.depth hc
    rw [length_of_dropLast hne hparent] at hdepth
    omega
  | succ d ih =>
    refine step name hname fun c hc => ?_
    obtain ⟨hc, hne, hparent⟩ := (h.mem_childrenOf hname).mp hc
    have hlength := length_of_dropLast hne hparent
    exact ih c hc (by omega)

theorem prefix_of_dropLast {c name : Name} (h : c.dropLast = name) : name <+: c := h ▸ c.dropLast_prefix

/-- **Which nodes the traversal visits.** -/
theorem Shaped.mem_preorder (h : nt.Shaped) {name : Name} (hname : (nt.find? name).isSome) {x : Name} :
    x ∈ nt.preorder w name ↔ name <+: x ∧ (nt.find? x).isSome ∧ (w x).1 = true ∧
      ∀ m, name <+: m → m <+: x → m ≠ x → (w m).2 = true := by
  refine h.induction_children (P := fun name => x ∈ nt.preorder w name ↔ name <+: x ∧ (nt.find? x).isSome ∧
    (w x).1 = true ∧ ∀ m, name <+: m → m <+: x → m ≠ x → (w m).2 = true) ?_ name hname
  intro name hname ih
  rw [h.preorder_eq hname, List.mem_append]
  constructor
  · rintro (hx | hx)
    · split_ifs at hx with hself
      · rw [List.mem_singleton.mp hx]
        refine ⟨List.prefix_refl _, hname, hself, fun m hm hm' hne => ?_⟩
        exact absurd (hm'.eq_of_length_le hm.length_le) hne
      · cases hx
    · split_ifs at hx with hchildren
      · obtain ⟨c, hc, hx⟩ := List.mem_flatMap.mp hx
        obtain ⟨-, hne, hparent⟩ := (h.mem_childrenOf hname).mp hc
        obtain ⟨hcx, hsome, hself, hbetween⟩ := (ih c hc).mp hx
        refine ⟨(prefix_of_dropLast hparent).trans hcx, hsome, hself, fun m hm hmx hne' => ?_⟩
        rcases Nat.lt_or_ge name.length m.length with hlt | hle
        · refine hbetween m (List.prefix_of_prefix_length_le hcx hmx ?_) hmx hne'
          rw [length_of_dropLast hne hparent]
          exact hlt
        · rw [← hm.eq_of_length_le hle]
          exact hchildren
      · cases hx
  · rintro ⟨hpre, hsome, hself, hbetween⟩
    by_cases hx : x = name
    · subst hx
      rw [if_pos hself]
      exact Or.inl (List.mem_singleton_self _)
    · have hlt : name.length < x.length :=
        lt_of_le_of_ne hpre.length_le fun heq => hx (hpre.eq_of_length heq).symm
      rw [if_pos (hbetween name (List.prefix_refl _) hpre (Ne.symm hx))]
      have hsub : (nt.find? (x.take (name.length + 1))).isSome := h.isSome_of_isPrefix (List.take_prefix _ _) hsome
      have hparent : (x.take (name.length + 1)).dropLast = name := by
        rw [List.dropLast_eq_take, List.length_take, List.take_take, min_eq_left (Nat.succ_le_of_lt hlt),
          Nat.succ_sub_one, min_eq_left (Nat.le_succ _)]
        exact (List.prefix_iff_eq_take.mp hpre).symm
      have hchild : x.take (name.length + 1) ∈ nt.childrenOf name := by
        refine (h.mem_childrenOf hname).mpr ⟨hsub, ?_, hparent⟩
        rw [Ne, List.take_eq_nil_iff]
        rintro (hzero | rfl)
        · cases hzero
        · cases hlt
      refine Or.inr (List.mem_flatMap.mpr ⟨_, hchild, (ih _ hchild).mpr ⟨List.take_prefix _ _, hsome, hself, ?_⟩⟩)
      intro m hm
      exact hbetween m ((prefix_of_dropLast hparent).trans hm)

theorem Shaped.nodup_preorder (h : nt.Shaped) {name : Name} (hname : (nt.find? name).isSome) :
    (nt.preorder w name).Nodup := by
  refine h.induction_children (P := fun name => (nt.preorder w name).Nodup) ?_ name hname
  intro name hname ih
  rw [h.preorder_eq hname]
  have hself : (if (w name).1 then [name] else []).Nodup := by
    split_ifs
    · exact List.nodup_singleton _
    · exact List.nodup_nil
  have hchild : ∀ c ∈ nt.childrenOf name, ∀ x ∈ nt.preorder w c, c <+: x ∧ c.length = name.length + 1 := by
    intro c hc x hx
    obtain ⟨hsome, hne, hparent⟩ := (h.mem_childrenOf hname).mp hc
    exact ⟨((h.mem_preorder hsome).mp hx).1, length_of_dropLast hne hparent⟩
  refine hself.append ?_ fun x hx hx' => ?_
  · split_ifs
    · refine List.nodup_flatMap.mpr ⟨ih, ?_⟩
      refine (h.nodup_childrenOf name).imp_of_mem fun {c c'} hc hc' hne x hx hx' => hne ?_
      obtain ⟨hcx, hlen⟩ := hchild c hc x hx
      obtain ⟨hcx', hlen'⟩ := hchild c' hc' x hx'
      exact (List.prefix_of_prefix_length_le hcx hcx' (hlen.trans hlen'.symm).le).eq_of_length
        (hlen.trans hlen'.symm)
    · exact List.nodup_nil
  · split_ifs at hx hx'
    · rw [List.mem_singleton.mp hx] at hx'
      obtain ⟨c, hc, hx'⟩ := List.mem_flatMap.mp hx'
      obtain ⟨hcx, hlen⟩ := hchild c hc name hx'
      have := hcx.length_le
      omega
    all_goals
      first
        | exact absurd hx List.not_mem_nil
        | exact absurd hx' List.not_mem_nil

/-! ## The iterator follows the traversal -/

/-- What the traversal has still to do when a node is done, over `k` levels up. -/
def after (nt : NameTree) (w : Name → Bool × Bool) : (k : ℕ) → Name → List Name
  | 0, _ => []
  | k + 1, name =>
    (siblingsAfter (nt.childrenOf name.dropLast) name).flatMap (nt.preorder w) ++ after nt w k name.dropLast

/-- What the traversal from `ref` has still to do when the iterator is at a node. -/
def pending (nt : NameTree) (w : Name → Bool × Bool) (ref entry : Name) (wantChildren : Bool) : List Name :=
  (if wantChildren then (nt.childrenOf entry).flatMap (nt.preorder w) else []) ++
    nt.after w (entry.length - ref.length) entry

/-- The number of nodes under some nodes. -/
def sizes (nt : NameTree) (names : List Name) : ℕ :=
  (names.flatMap (nt.preorder fun _ => (true, true))).length

/-- A bound on the turns of the loop when a node is done, over `k` levels up. -/
def turnsAfter (nt : NameTree) : (k : ℕ) → Name → ℕ
  | 0, _ => 0
  | k + 1, name =>
    1 + 2 * nt.sizes (siblingsAfter (nt.childrenOf name.dropLast) name) + turnsAfter nt k name.dropLast

def turns (nt : NameTree) (ref entry : Name) (wantChildren : Bool) : ℕ :=
  (if wantChildren then 2 * nt.sizes (nt.childrenOf entry) else 0) +
    nt.turnsAfter (entry.length - ref.length) entry

theorem sizes_append (l₁ l₂ : List Name) : nt.sizes (l₁ ++ l₂) = nt.sizes l₁ + nt.sizes l₂ := by
  rw [sizes, List.flatMap_append, List.length_append]
  rfl

theorem Shaped.sizes_cons (h : nt.Shaped) {name : Name} (hname : (nt.find? name).isSome) (l : List Name) :
    nt.sizes (name :: l) = 1 + nt.sizes (nt.childrenOf name) + nt.sizes l := by
  rw [sizes, List.flatMap_cons, List.length_append, h.preorder_eq hname, if_pos rfl, if_pos rfl,
    List.length_append]
  rfl

theorem siblingsAfter_eq {l l₁ l₂ : List Name} {x : Name} (hnodup : l.Nodup) (hl : l = l₁ ++ x :: l₂) :
    siblingsAfter l x = l₂ := by
  subst hl
  have hx : ∀ y ∈ l₁, decide (y ≠ x) = true := by
    intro y hy
    rw [decide_eq_true_iff]
    rintro rfl
    exact List.disjoint_of_nodup_append hnodup hy (List.mem_cons_self ..)
  rw [siblingsAfter, List.dropWhile_append_of_pos hx, List.dropWhile_cons_of_neg (by simp), List.tail_cons]

theorem exists_siblingsAfter {l : List Name} {x : Name} (hnodup : l.Nodup) (hx : x ∈ l) :
    ∃ l₁, l = l₁ ++ x :: siblingsAfter l x := by
  obtain ⟨l₁, l₂, hl⟩ := List.append_of_mem hx
  exact ⟨l₁, by rw [siblingsAfter_eq hnodup hl]; exact hl⟩

/-- **What the loop over the siblings comes to**: those that it passes by take no part in the traversal. -/
theorem nextSibling_cases (nt : NameTree) (pred : EntrySubTreeSelector) (l : List Name) :
    (∃ l₁ x l₂ wantChildren, l = l₁ ++ x :: l₂ ∧ (∀ y ∈ l₁, nt.want pred y = (false, false)) ∧
        nt.want pred x = (true, wantChildren) ∧ nt.nextSibling pred l = .visit x wantChildren) ∨
      (∃ l₁ x l₂, l = l₁ ++ x :: l₂ ∧ (∀ y ∈ l₁, nt.want pred y = (false, false)) ∧
        nt.want pred x = (false, true) ∧ nt.nextSibling pred l = .descend x) ∨
      (∀ y ∈ l, nt.want pred y = (false, false)) ∧ nt.nextSibling pred l = .noMore := by
  induction l with
  | nil => exact Or.inr (Or.inr ⟨fun _ h => absurd h List.not_mem_nil, rfl⟩)
  | cons x l ih =>
    rw [nextSibling]
    rcases hx : nt.want pred x with ⟨_ | _, _ | _⟩
    · rcases ih with ⟨l₁, y, l₂, wc, rfl, hl₁, hy, hres⟩ | ⟨l₁, y, l₂, rfl, hl₁, hy, hres⟩ | ⟨hl, hres⟩
      · exact Or.inl ⟨x :: l₁, y, l₂, wc, rfl, List.forall_mem_cons.mpr ⟨hx, hl₁⟩, hy, hres⟩
      · exact Or.inr (Or.inl ⟨x :: l₁, y, l₂, rfl, List.forall_mem_cons.mpr ⟨hx, hl₁⟩, hy, hres⟩)
      · exact Or.inr (Or.inr ⟨List.forall_mem_cons.mpr ⟨hx, hl⟩, hres⟩)
    · exact Or.inr (Or.inl ⟨[], x, l, rfl, fun _ h => absurd h List.not_mem_nil, hx, rfl⟩)
    · exact Or.inl ⟨[], x, l, false, rfl, fun _ h => absurd h List.not_mem_nil, hx, rfl⟩
    · exact Or.inl ⟨[], x, l, true, rfl, fun _ h => absurd h List.not_mem_nil, hx, rfl⟩

section Child

variable {ref entry c : Name} {l₁ l₂ : List Name}

theorem Shaped.child (h : nt.Shaped) (hentry : (nt.find? entry).isSome) (href : ref <+: entry) (hc : c ∈ nt.childrenOf entry) :
    c.dropLast = entry ∧ c.length - ref.length = (entry.length - ref.length) + 1 := by
  obtain ⟨-, hne, hparent⟩ := (h.mem_childrenOf hentry).mp hc
  rw [length_of_dropLast hne hparent]
  exact ⟨hparent, Nat.succ_sub href.length_le⟩

theorem Shaped.pending_child (h : nt.Shaped) (hentry : (nt.find? entry).isSome) (href : ref <+: entry)
    (hl : nt.childrenOf entry = l₁ ++ c :: l₂) (wantChildren : Bool) :
    nt.pending w ref c wantChildren =
      (if wantChildren then (nt.childrenOf c).flatMap (nt.preorder w) else []) ++
        (l₂.flatMap (nt.preorder w) ++ nt.after w (entry.length - ref.length) entry) := by
  obtain ⟨hparent, hlevel⟩ := h.child hentry href (show c ∈ nt.childrenOf entry by simp [hl])
  rw [pending, hlevel, after, hparent, siblingsAfter_eq (h.nodup_childrenOf entry) hl]

theorem Shaped.turns_child (h : nt.Shaped) (hentry : (nt.find? entry).isSome) (href : ref <+: entry)
    (hl : nt.childrenOf entry = l₁ ++ c :: l₂) (wantChildren : Bool) :
    nt.turns ref c wantChildren =
      (if wantChildren then 2 * nt.sizes (nt.childrenOf c) else 0) +
        (1 + 2 * nt.sizes l₂ + nt.turnsAfter (entry.length - ref.length) entry) := by
  obtain ⟨hparent, hlevel⟩ := h.child hentry href (show c ∈ nt.childrenOf entry by simp [hl])
  rw [turns, hlevel, turnsAfter, hparent, siblingsAfter_eq (h.nodup_childrenOf entry) hl]

theorem Shaped.flatMap_eq_nil (h : nt.Shaped) {l : List Name} (hsome : ∀ y ∈ l, (nt.find? y).isSome)
    (hl : ∀ y ∈ l, w y = (false, false)) : l.flatMap (nt.preorder w) = [] := by
  refine List.flatMap_eq_nil_iff.mpr fun y hy => ?_
  rw [h.preorder_eq (hsome y hy), hl y hy]
  rfl

theorem Shaped.flatMap_skip (h : nt.Shaped) (hentry : (nt.find? entry).isSome) (href : ref <+: entry)
    {l₀ : List Name} (hl : nt.childrenOf entry = l₀ ++ (l₁ ++ c :: l₂))
    (hl₁ : ∀ y ∈ l₁, w y = (false, false)) :
    (l₁ ++ c :: l₂).flatMap (nt.preorder w) ++ nt.after w (entry.length - ref.length) entry =
      (if (w c).1 then [c] else []) ++ nt.pending w ref c (w c).2 := by
  have hmem : ∀ y ∈ l₁ ++ c :: l₂, (nt.find? y).isSome := fun y hy =>
    ((h.mem_childrenOf hentry).mp (hl ▸ List.mem_append_right _ hy)).1
  have hskip := h.flatMap_eq_nil (fun y hy => hmem y (List.mem_append_left _ hy)) hl₁
  rw [h.pending_child hentry href (hl.trans (List.append_assoc ..).symm), List.flatMap_append, hskip,
    List.nil_append, List.flatMap_cons,
    h.preorder_eq (hmem c (List.mem_append_right _ (List.mem_cons_self ..)))]
  simp only [List.append_assoc]

theorem Shaped.turns_skip (h : nt.Shaped) (hentry : (nt.find? entry).isSome) (href : ref <+: entry)
    {l₀ : List Name} (hl : nt.childrenOf entry = l₀ ++ (l₁ ++ c :: l₂)) (wantChildren : Bool) :
    nt.turns ref c wantChildren <
      2 * nt.sizes (l₁ ++ c :: l₂) + nt.turnsAfter (entry.length - ref.length) entry := by
  have hc : c ∈ nt.childrenOf entry := by simp [hl]
  have hsome := ((h.mem_childrenOf hentry).mp hc).1
  rw [h.turns_child hentry href (hl.trans (List.append_assoc ..).symm), sizes_append, h.sizes_cons hsome]
  split_ifs
  · omega
  · omega

end Child

/-- What a call of `advance` comes to: the end when nothing is pending, else the node that is next. -/
def Advances (nt : NameTree) (w : Name → Bool × Bool) (ref entry : Name) (wantChildren : Bool) :
    Option (Name × Bool) → Prop
  | none => nt.pending w ref entry wantChildren = []
  | some (next, state) =>
    nt.pending w ref entry wantChildren = next :: nt.pending w ref next state ∧ ref <+: next ∧
      (nt.find? next).isSome ∧ nt.turns ref next state < nt.turns ref entry wantChildren

theorem Advances.of_turn {ref entry entry' : Name} {wc wc' : Bool} {r : Option (Name × Bool)}
    (hr : nt.Advances w ref entry' wc' r) (hpending : nt.pending w ref entry wc = nt.pending w ref entry' wc')
    (hturns : nt.turns ref entry' wc' < nt.turns ref entry wc) : nt.Advances w ref entry wc r := by
  cases r with
  | none => exact hpending.trans hr
  | some next =>
    obtain ⟨hnext, href, hsome, hlt⟩ := hr
    exact ⟨hpending.trans hnext, href, hsome, hlt.trans hturns⟩

section Turn

variable {ref entry : Name} {e : NtEntry} {fuel : ℕ} {wantChildren : Bool}

theorem advanceLoop_child {c : Name} {cs : List Name} (he : nt.find? entry = some e)
    (hchildren : e.children = c :: cs) :
    nt.advanceLoop pred ref (fuel + 1) entry true =
      match nt.want pred c with
      | (true, wantChildren) => some (some (c, wantChildren))
      | (false, wantChildren) => nt.advanceLoop pred ref fuel c wantChildren := by
  simp only [advanceLoop, he, hchildren]

theorem advanceLoop_done (he : nt.find? entry = some e) (hdone : wantChildren = true → e.children = []) :
    nt.advanceLoop pred ref (fuel + 1) entry wantChildren =
      if entry = ref then some none
      else
        match e.parent with
        | none => none
        | some parent =>
          match nt.find? parent with
          | none => none
          | some p =>
            match nt.nextSibling pred (siblingsAfter p.children entry) with
            | .visit sibling wantChildren => some (some (sibling, wantChildren))
            | .descend sibling => nt.advanceLoop pred ref fuel sibling true
            | .noMore => nt.advanceLoop pred ref fuel parent false := by
  rw [advanceLoop, he]
  cases wantChildren with
  | false => rfl
  | true => simp only [hdone rfl]

theorem childrenOf_eq (he : nt.find? entry = some e) : nt.childrenOf entry = e.children := by
  rw [childrenOf, he]
  rfl

theorem pending_done (w : Name → Bool × Bool) (ref : Name) (he : nt.find? entry = some e)
    (hdone : wantChildren = true → e.children = []) :
    nt.pending w ref entry wantChildren = nt.after w (entry.length - ref.length) entry := by
  cases wantChildren with
  | false => rfl
  | true =>
    rw [pending, childrenOf_eq he, hdone rfl]
    rfl

theorem prefix_parent (href : ref <+: entry) (hne : entry ≠ ref) :
    entry ≠ [] ∧ ref <+: entry.dropLast ∧
      entry.length - ref.length = (entry.dropLast.length - ref.length) + 1 := by
  have hlt : ref.length < entry.length :=
    lt_of_le_of_ne href.length_le fun heq => hne (href.eq_of_length heq).symm
  have hlength := entry.length_dropLast
  refine ⟨List.ne_nil_of_length_pos (by omega), ?_, by omega⟩
  exact List.prefix_of_prefix_length_le href entry.dropLast_prefix (by omega)

end Turn

/-- What it comes to when a child is the first of the pending siblings that takes part. -/
theorem Shaped.advances_child (h : nt.Shaped) {ref entry parent c : Name} {l₀ l₁ l₂ : List Name}
    {wantChildren : Bool} (hparent : (nt.find? parent).isSome) (href : ref <+: parent)
    (hl : nt.childrenOf parent = l₀ ++ (l₁ ++ c :: l₂)) (hl₁ : ∀ y ∈ l₁, w y = (false, false))
    (hpending : nt.pending w ref entry wantChildren =
      (l₁ ++ c :: l₂).flatMap (nt.preorder w) ++ nt.after w (parent.length - ref.length) parent)
    (hturns : 2 * nt.sizes (l₁ ++ c :: l₂) + nt.turnsAfter (parent.length - ref.length) parent ≤
      nt.turns ref entry wantChildren) :
    ref <+: c ∧ (nt.find? c).isSome ∧ nt.turns ref c (w c).2 < nt.turns ref entry wantChildren ∧
      ((w c).1 = true → nt.Advances w ref entry wantChildren (some (c, (w c).2))) ∧
      ((w c).1 = false → ∀ r, nt.Advances w ref c (w c).2 r → nt.Advances w ref entry wantChildren r) := by
  have hmem : c ∈ nt.childrenOf parent := by simp [hl]
  obtain ⟨hsome, -, hdrop⟩ := (h.mem_childrenOf hparent).mp hmem
  have hrefc := href.trans (prefix_of_dropLast hdrop)
  have hlt := (h.turns_skip hparent href hl (w c).2).trans_le hturns
  have hnext := hpending.trans (h.flatMap_skip hparent href hl hl₁)
  refine ⟨hrefc, hsome, hlt, fun hself => ?_, fun hself r hr => ?_⟩
  · rw [hself] at hnext
    exact ⟨hnext, hrefc, hsome, hlt⟩
  · rw [hself] at hnext
    exact hr.of_turn hnext hlt

/-- **A call of `advance`** comes to an end. -/
theorem Shaped.advanceLoop_spec (h : nt.Shaped) (pred : EntrySubTreeSelector) {ref : Name} (fuel : ℕ)
    {entry : Name} {wantChildren : Bool} (href : ref <+: entry) (hentry : (nt.find? entry).isSome)
    (hfuel : nt.turns ref entry wantChildren < fuel) :
    ∃ r, nt.advanceLoop pred ref fuel entry wantChildren = some r ∧
      nt.Advances (nt.want pred) ref entry wantChildren r := by
  induction fuel generalizing entry wantChildren with
  | zero => exact absurd hfuel (Nat.not_lt_zero _)
  | succ fuel ih =>
    obtain ⟨e, he⟩ := Option.isSome_iff_exists.mp hentry
    have hchildren := childrenOf_eq he
    by_cases hdone : wantChildren = true → e.children = []
    · rw [advanceLoop_done he hdone]
      by_cases hroot : entry = ref
      · rw [if_pos hroot]
        refine ⟨none, rfl, ?_⟩
        rw [Advances, pending_done _ _ he hdone, hroot, Nat.sub_self]
        rfl
      · -- the node is done with, and not the one the enumeration is of: its siblings are next
        obtain ⟨hne, hrefp, hlevel⟩ := prefix_parent href hroot
        have hparent := h.closed hentry hne
        obtain ⟨p, hp⟩ := Option.isSome_iff_exists.mp hparent
        obtain ⟨l₀, hl⟩ := exists_siblingsAfter (h.nodup_childrenOf _)
          ((h.mem_childrenOf hparent).mpr ⟨hentry, hne, rfl⟩)
        have hpending := pending_done (nt.want pred) ref he hdone
        have hturns : nt.turnsAfter (entry.length - ref.length) entry ≤ nt.turns ref entry wantChildren :=
          Nat.le_add_left _ _
        rw [hlevel, after] at hpending
        rw [hlevel, turnsAfter] at hturns
        rw [if_neg hroot, h.parent he, if_neg hne]
        simp only [hp]
        rw [← childrenOf_eq hp]
        generalize siblingsAfter (nt.childrenOf entry.dropLast) entry = siblings at *
        rcases nextSibling_cases nt pred siblings with ⟨l₁, c, l₂, wc, rfl, hl₁, hc, hres⟩ |
          ⟨l₁, c, l₂, rfl, hl₁, hc, hres⟩ | ⟨hskip, hres⟩
        · obtain ⟨-, -, -, hvisit, -⟩ := h.advances_child hparent hrefp
            (hl.trans (List.append_cons ..)) hl₁ hpending (by omega)
          rw [hres]
          rw [hc] at hvisit
          exact ⟨_, rfl, hvisit rfl⟩
        · obtain ⟨hrefc, hsome, hlt, -, hturn⟩ := h.advances_child hparent hrefp
            (hl.trans (List.append_cons ..)) hl₁ hpending (by omega)
          rw [hc] at hlt hturn
          obtain ⟨r, hr, hadv⟩ := ih hrefc hsome (hlt.trans_le (Nat.lt_succ_iff.mp hfuel))
          rw [hres]
          exact ⟨r, hr, hturn rfl r hadv⟩
        · have hnone : siblings.flatMap (nt.preorder (nt.want pred)) = [] := by
            refine h.flatMap_eq_nil (fun y hy => ?_) hskip
            exact ((h.mem_childrenOf hparent).mp (hl ▸ List.mem_append_right _ (List.mem_cons_of_mem _ hy))).1
          have hlt : nt.turns ref entry.dropLast false < nt.turns ref entry wantChildren := by
            rw [turns, if_neg Bool.false_ne_true]
            omega
          obtain ⟨r, hr, hadv⟩ := ih hrefp hparent (hlt.trans_le (Nat.lt_succ_iff.mp hfuel))
          rw [hres]
          refine ⟨r, hr, hadv.of_turn ?_ hlt⟩
          rw [hpending, hnone]
          rfl
    · -- the children of the node are next
      push Not at hdone
      obtain ⟨rfl, hne⟩ := hdone
      obtain ⟨c, cs, hc⟩ := List.exists_cons_of_ne_nil hne
      have hl : nt.childrenOf entry = [] ++ ([] ++ c :: cs) := hchildren.trans hc
      obtain ⟨hrefc, hsome, hlt, hvisit, hturn⟩ := h.advances_child (w := nt.want pred) hentry href hl
        (fun _ hy => absurd hy List.not_mem_nil) (by rw [pending, if_pos rfl, hl]; rfl)
        (by rw [turns, if_pos rfl, hl]; rfl)
      rw [advanceLoop_child he hc]
      rcases hself : nt.want pred c with ⟨_ | _, wc⟩
      · rw [hself] at hlt hturn
        obtain ⟨r, hr, hadv⟩ := ih hrefc hsome (hlt.trans_le (Nat.lt_succ_iff.mp hfuel))
        exact ⟨r, hr, hturn rfl r hadv⟩
      · rw [hself] at hvisit
        exact ⟨_, rfl, hvisit rfl⟩

theorem Shaped.visitsAfter_eq (h : nt.Shaped) (pred : EntrySubTreeSelector) {ref : Name} {fuel : ℕ} (n : ℕ)
    {entry : Name} {state : Bool} (href : ref <+: entry) (hentry : (nt.find? entry).isSome)
    (hfuel : nt.turns ref entry state < fuel) (hn : nt.turns ref entry state < n) :
    nt.visitsAfter pred ref fuel n entry state = some (nt.pending (nt.want pred) ref entry state) := by
  induction n generalizing entry state with
  | zero => exact absurd hn (Nat.not_lt_zero _)
  | succ n ih =>
    obtain ⟨r, hr, hadv⟩ := h.advanceLoop_spec pred fuel href hentry hfuel
    rw [visitsAfter, hr]
    cases r with
    | none =>
      rw [hadv]
      rfl
    | some next =>
      obtain ⟨hnext, href, hsome, hlt⟩ := hadv
      have hrest := ih href hsome (hlt.trans hfuel) (hlt.trans_le (Nat.lt_succ_iff.mp hn))
      simp only [Option.bind_eq_bind, Option.bind_some, hrest, hnext]

/-- There is fuel enough. -/
theorem Shaped.turns_lt (h : nt.Shaped) {ref : Name} (href : (nt.find? ref).isSome) (state : Bool) :
    nt.turns ref ref state < nt.enumerationFuel := by
  have hsizes : nt.sizes [ref] ≤ (nt.toList.map Prod.fst).length := by
    rw [sizes, List.flatMap_singleton]
    refine ((h.nodup_preorder href).subperm fun x hx => ?_).length_le
    obtain ⟨-, hsome, -⟩ := (h.mem_preorder href).mp hx
    obtain ⟨e, he⟩ := Option.isSome_iff_exists.mp hsome
    exact List.mem_map_of_mem ((OrdMap.mem_toList nt).mpr he)
  rw [List.length_map] at hsizes
  rw [h.sizes_cons href] at hsizes
  rw [turns, enumerationFuel, Nat.sub_self, turnsAfter]
  split_ifs
  · omega
  · omega

/-- **The iterator makes the traversal.** -/
theorem Shaped.partialEnumerate_eq (h : nt.Shaped) (pred : EntrySubTreeSelector) (name : Name) :
    nt.partialEnumerate pred name =
      some (if (nt.find? name).isSome then nt.preorder (nt.want pred) name else []) := by
  have hexact : nt.findExactMatch name name.length = if (nt.find? name).isSome then some name else none := by
    rw [findExactMatch, min_self, List.take_length]
    split_ifs with hdeep hsome hsome
    · exact absurd (h.depth hsome) (Nat.not_le.mpr hdeep)
    · rfl
    · rfl
    · rfl
  rw [partialEnumerate, hexact]
  split_ifs with hsome
  · have hrest := fun state => h.visitsAfter_eq pred nt.enumerationFuel (List.prefix_refl _) hsome
      (h.turns_lt hsome state) (h.turns_lt hsome state)
    have hpending : ∀ state, nt.pending (nt.want pred) name name state =
        if state then (nt.childrenOf name).flatMap (nt.preorder (nt.want pred)) else [] := by
      intro state
      rw [pending, Nat.sub_self, after, List.append_nil]
    rw [h.preorder_eq hsome]
    rcases hself : nt.want pred name with ⟨_ | _, wc⟩
    · simp [hrest, hpending, hself]
    · simp [hrest, hpending, hself]
  · rfl

/-- **Preorder**: a node is before the nodes below it, and the nodes below a child are before those below a later one. -/
def Precedes (nt : NameTree) (x y : Name) : Prop :=
  x <+: y ∨ ∃ parent c d, [c, d].Sublist (nt.childrenOf parent) ∧ c <+: x ∧ d <+: y

theorem Shaped.pairwise_preorder (h : nt.Shaped) {name : Name} (hname : (nt.find? name).isSome) :
    (nt.preorder w name).Pairwise nt.Precedes := by
  refine h.induction_children (P := fun name => (nt.preorder w name).Pairwise nt.Precedes) ?_ name hname
  intro name hname ih
  have hprefix : ∀ c ∈ nt.childrenOf name, ∀ x ∈ nt.preorder w c, c <+: x := by
    intro c hc x hx
    exact ((h.mem_preorder ((h.mem_childrenOf hname).mp hc).1).mp hx).1
  rw [h.preorder_eq hname, List.pairwise_append]
  refine ⟨?_, ?_, fun x hx y hy => ?_⟩
  · split_ifs
    · exact List.pairwise_singleton _ _
    · exact List.Pairwise.nil
  · split_ifs
    · rw [List.pairwise_flatMap]
      refine ⟨ih, ?_⟩
      rw [List.pairwise_iff_forall_sublist]
      intro c d hcd x hx y hy
      exact Or.inr ⟨name, c, d, hcd, hprefix c (hcd.subset (by simp)) x hx, hprefix d (hcd.subset (by simp)) y hy⟩
    · exact List.Pairwise.nil
  · split_ifs at hx hy
    · obtain rfl := List.mem_singleton.mp hx
      obtain ⟨c, hc, hy⟩ := List.mem_flatMap.mp hy
      exact Or.inl ((prefix_of_dropLast ((h.mem_childrenOf hname).mp hc).2.2).trans ( hprefix c hc y hy))
    all_goals
      first
        | exact absurd hx List.not_mem_nil
        | exact absurd hy List.not_mem_nil

/-! ## Every tree -/

/-- **The trees that are made**: from the empty one by looking up nodes, pruning, and any edits of the table entries of
nodes. -/
inductive Built : NameTree → Prop
  | empty : Built OrdMap.empty
  | lookup {nt : NameTree} (h : Built nt) {name : Name} {prefixLen : ℕ} (hlen : prefixLen ≤ name.length)
    (hdepth : prefixLen ≤ maxDepth) : Built (nt.lookup name prefixLen)
  | eraseIfEmpty {nt : NameTree} (h : Built nt) (name : Name) (canEraseAncestors : Bool) :
    Built (nt.eraseIfEmpty name canEraseAncestors)
  | edit {nt : NameTree} (h : Built nt) (name : Name) (f : TableEntries → TableEntries) : Built (nt.edit name f)

theorem Built.shaped (h : Built nt) : nt.Shaped := by
  induction h with
  | empty => exact shaped_empty
  | lookup _ hlen hdepth ih => exact ih.lookup hlen hdepth
  | eraseIfEmpty _ name canEraseAncestors ih => exact ih.eraseIfEmpty name canEraseAncestors
  | edit _ name f ih => exact ih.edit name f

/-- The visits of an enumeration: the nodes that the selector takes, of those that it lets the iterator come to, once each
and in preorder. -/
structure Visits (nt : NameTree) (pred : EntrySubTreeSelector) (ref : Name) (visits : List Name) : Prop where
  mem_iff : ∀ x, x ∈ visits ↔ ref <+: x ∧ (∃ e, nt.find? x = some e ∧ (pred x e).1 = true) ∧
    ∀ a, ref <+: a → a <+: x → a ≠ x → ∃ e, nt.find? a = some e ∧ (pred a e).2 = true
  nodup : visits.Nodup
  preorder : visits.Pairwise nt.Precedes

theorem want_iff {name : Name} {g : Bool × Bool → Bool} (hg : g (false, false) = false) :
    g (nt.want pred name) = true ↔ ∃ e, nt.find? name = some e ∧ g (pred name e) = true := by
  unfold want
  cases nt.find? name with
  | none => simp [hg]
  | some e => simp

/-- **The iterator comes to its end, and visits what it should.** Where there is no node, it visits nothing. -/
theorem Built.partialEnumerate_spec (h : Built nt) (pred : EntrySubTreeSelector) (ref : Name) :
    ∃ visits, nt.partialEnumerate pred ref = some visits ∧ nt.Visits pred ref visits ∧
      (nt.find? ref = none → visits = []) := by
  have hshaped := h.shaped
  refine ⟨_, hshaped.partialEnumerate_eq pred ref, ?_, fun hnone => by rw [hnone]; rfl⟩
  by_cases href : (nt.find? ref).isSome
  · rw [if_pos href]
    refine ⟨fun x => ?_, hshaped.nodup_preorder href, hshaped.pairwise_preorder href⟩
    rw [hshaped.mem_preorder href]
    refine and_congr_right fun _ => ?_
    have hself : (nt.want pred x).1 = true ↔ ∃ e, nt.find? x = some e ∧ (pred x e).1 = true := want_iff rfl
    have hbetween : ∀ a, (nt.want pred a).2 = true ↔ ∃ e, nt.find? a = some e ∧ (pred a e).2 = true := fun a =>
      want_iff rfl
    simp only [hself, hbetween]
    refine ⟨fun hx => hx.2, fun hx => ⟨?_, hx⟩⟩
    obtain ⟨e, he, -⟩ := hx.1
    rw [he]
    rfl
  · rw [if_neg href]
    refine ⟨fun x => ⟨fun hx => absurd hx List.not_mem_nil, ?_⟩, List.nodup_nil, List.Pairwise.nil⟩
    rintro ⟨hpre, ⟨e, he, -⟩, -⟩
    exact absurd (hshaped.isSome_of_isPrefix hpre (by rw [he]; rfl)) href

/-- A tree of two nodes, of which the lower one is visited. -/
theorem Built.partialEnumerate_spec_lookup :
    ∃ visits, (NameTree.lookup OrdMap.empty [⟨8, [65]⟩] 1).partialEnumerate (fun name _ => (! name.isEmpty, true)) [] = some visits ∧
      (NameTree.lookup OrdMap.empty [⟨8, [65]⟩] 1).Visits (fun name _ => (! name.isEmpty, true)) [] visits ∧
        ((NameTree.lookup OrdMap.empty [⟨8, [65]⟩] 1).find? [] = none → visits = []) :=
  Built.partialEnumerate_spec (.lookup .empty le_rfl (by decide)) _ []

end Ns3Ndn.NameTree
