import Ns3Ndn.Rib.Table

/-!
# The name tree of the RIB

The parent of an entry is the entry of its longest proper prefix, and the children of an entry
are the entries whose parent it is, each once. `insert` keeps this when it puts a name in the
middle of the tree, and `erase` when it takes one out; neither runs into an assertion.

* **`Tree.insert`**, **`Tree.erase`**: the invariant is kept, and no assertion fails.
-/

namespace Ns3Ndn.Rib

open OrdLib

/-! ## The longest proper prefix -/

section Parent

variable {rib : OrdMap Name EntryPtr} {name : Name}

theorem findParentFrom_eq_some {p : EntryPtr} {i : ℕ} :
    findParentFrom rib name i = some p ↔
      ∃ k < i, rib.find? (name.take k) = some p ∧
        ∀ j, k < j → j < i → rib.find? (name.take j) = none := by
  induction i with
  | zero => simp [findParentFrom]
  | succ i ih =>
    rw [findParentFrom]
    cases h : rib.find? (name.take i) with
    | some q =>
      constructor
      · intro hq
        exact ⟨i, i.lt_succ_self, by rw [h, ← hq], fun j h1 h2 => absurd h2 (by omega)⟩
      · rintro ⟨k, hk, hp, hn⟩
        rcases Nat.lt_succ_iff_lt_or_eq.mp hk with hlt | rfl
        · rw [hn i hlt i.lt_succ_self] at h
          cases h
        · rw [← hp, h]
    | none =>
      dsimp only
      rw [ih]
      constructor
      · rintro ⟨k, hk, hp, hn⟩
        refine ⟨k, by omega, hp, fun j h1 h2 => ?_⟩
        rcases Nat.lt_succ_iff_lt_or_eq.mp h2 with h2 | rfl
        · exact hn j h1 h2
        · exact h
      · rintro ⟨k, hk, hp, hn⟩
        refine ⟨k, ?_, hp, fun j h1 h2 => hn j h1 (by omega)⟩
        rcases Nat.lt_succ_iff_lt_or_eq.mp hk with hlt | rfl
        · exact hlt
        · rw [hp] at h
          cases h

theorem findParentFrom_eq_none {i : ℕ} :
    findParentFrom rib name i = none ↔ ∀ j < i, rib.find? (name.take j) = none := by
  induction i with
  | zero => simp [findParentFrom]
  | succ i ih =>
    rw [findParentFrom]
    cases h : rib.find? (name.take i) with
    | some q =>
      refine iff_of_false (Option.some_ne_none q) fun hn => ?_
      rw [hn i i.lt_succ_self] at h
      cases h
    | none =>
      dsimp only
      rw [ih]
      refine ⟨fun hn j hj => ?_, fun hn j hj => hn j (by omega)⟩
      rcases Nat.lt_succ_iff_lt_or_eq.mp hj with hj | rfl
      · exact hn j hj
      · exact h

theorem findParentFrom_skip {a b : ℕ} (hab : a ≤ b)
    (h : ∀ j, a ≤ j → j < b → rib.find? (name.take j) = none) :
    findParentFrom rib name b = findParentFrom rib name a := by
  induction b with
  | zero => rw [Nat.le_zero.mp hab]
  | succ b ih =>
    rcases Nat.le_succ_iff.mp hab with hab | rfl
    · rw [findParentFrom, h b hab b.lt_succ_self]
      exact ih hab fun j h1 h2 => h j h1 (by omega)
    · rfl

/-- The scan reads only the lengths below its start. -/
theorem findParentFrom_congr {rib' : OrdMap Name EntryPtr} {name' : Name} {i : ℕ}
    (h : ∀ j < i, rib.find? (name.take j) = rib'.find? (name'.take j)) :
    findParentFrom rib name i = findParentFrom rib' name' i := by
  induction i with
  | zero => rfl
  | succ i ih =>
    rw [findParentFrom, findParentFrom, h i i.lt_succ_self, ih fun j hj => h j (by omega)]

end Parent

variable {s : Rib}

theorem findParent_eq_some {name : Name} {p : EntryPtr} :
    s.findParent name = some p ↔
      ∃ k < name.length, s.rib.find? (name.take k) = some p ∧
        ∀ j, k < j → j < name.length → s.rib.find? (name.take j) = none :=
  findParentFrom_eq_some

theorem proper_prefix_iff {k n : Name} : k <+: n ∧ k ≠ n ↔ ∃ i < n.length, k = n.take i := by
  constructor
  · rintro ⟨h, hne⟩
    refine ⟨k.length, lt_of_le_of_ne h.length_le fun e => hne (h.eq_of_length e), ?_⟩
    exact List.prefix_iff_eq_take.mp h
  · rintro ⟨i, hi, rfl⟩
    refine ⟨List.take_prefix i n, fun e => ?_⟩
    have := congrArg List.length e
    rw [List.length_take] at this
    omega

/-! ## The invariant -/

/-- **The tree invariant.** -/
structure Tree (s : Rib) : Prop where
  fresh : ∀ {n p}, s.rib.find? n = some p → p < s.nEntries
  named : ∀ {n p}, s.rib.find? n = some p → (s.entries p).name = n
  parent : ∀ {n p}, s.rib.find? n = some p → (s.entries p).parent = s.findParent n
  nodup : ∀ {n p}, s.rib.find? n = some p → (s.entries p).children.Nodup
  children : ∀ {n p}, s.rib.find? n = some p → ∀ q, q ∈ (s.entries p).children ↔
    (∃ m, s.rib.find? m = some q) ∧ (s.entries q).parent = some p

theorem Tree.inj (h : Tree s) {n m : Name} {p : EntryPtr} (hn : s.rib.find? n = some p)
    (hm : s.rib.find? m = some p) : n = m := by
  rw [← h.named hn, ← h.named hm]

theorem tree_empty : Tree empty where
  fresh h := by cases h
  named h := by cases h
  parent h := by cases h
  nodup h := by cases h
  children h := by cases h

/-- A relinking changes only parents and children. -/
structure Relinked (s t : Rib) : Prop where
  rib : t.rib = s.rib
  nEntries : t.nEntries = s.nEntries
  faceEntries : t.faceEntries = s.faceEntries
  nItems : t.nItems = s.nItems
  name : ∀ q, (t.entries q).name = (s.entries q).name
  routes : ∀ q, (t.entries q).routes = (s.entries q).routes
  inheritedRoutes : ∀ q, (t.entries q).inheritedRoutes = (s.entries q).inheritedRoutes
  capture : ∀ q, (t.entries q).nRoutesWithCaptureSet = (s.entries q).nRoutesWithCaptureSet

theorem Relinked.refl (s : Rib) : Relinked s s :=
  ⟨rfl, rfl, rfl, rfl, fun _ => rfl, fun _ => rfl, fun _ => rfl, fun _ => rfl⟩

theorem Relinked.trans {s t u : Rib} (h : Relinked s t) (k : Relinked t u) : Relinked s u where
  rib := k.rib.trans h.rib
  nEntries := k.nEntries.trans h.nEntries
  faceEntries := k.faceEntries.trans h.faceEntries
  nItems := k.nItems.trans h.nItems
  name q := (k.name q).trans (h.name q)
  routes q := (k.routes q).trans (h.routes q)
  inheritedRoutes q := (k.inheritedRoutes q).trans (h.inheritedRoutes q)
  capture q := (k.capture q).trans (h.capture q)

theorem Relinked.findParent {s t : Rib} (h : Relinked s t) (n : Name) :
    t.findParent n = s.findParent n := by
  rw [Rib.findParent, Rib.findParent, h.rib]

theorem addChild_spec {p c : EntryPtr} (hc : (s.entries c).parent = none) (hpc : p ≠ c) :
    ∃ t, s.addChild p c = some t ∧ Relinked s t ∧
      (∀ q, (t.entries q).parent = if q = c then some p else (s.entries q).parent) ∧
      ∀ q, (t.entries q).children =
        if q = p then (s.entries p).children ++ [c] else (s.entries q).children := by
  refine ⟨_, if_pos hc, ⟨rfl, rfl, rfl, rfl, ?_, ?_, ?_, ?_⟩, ?_, ?_⟩ <;> intro q <;>
    by_cases hqp : q = p <;> by_cases hqc : q = c <;>
    simp_all [modify]

theorem removeChild_spec {p c : EntryPtr} (hc : (s.entries c).parent = some p) (hpc : p ≠ c) :
    ∃ t, s.removeChild p c = some t ∧ Relinked s t ∧
      (∀ q, (t.entries q).parent = if q = c then none else (s.entries q).parent) ∧
      ∀ q, (t.entries q).children =
        if q = p then (s.entries p).children.filter (· ≠ c) else (s.entries q).children := by
  refine ⟨_, if_pos hc, ⟨rfl, rfl, rfl, rfl, ?_, ?_, ?_, ?_⟩, ?_, ?_⟩ <;> intro q <;>
    by_cases hqp : q = p <;> by_cases hqc : q = c <;>
    simp_all [modify]

variable {P : Option EntryPtr}

/-- A map of the children of the parent, if there is one. -/
theorem children_of_parent {f : List EntryPtr → List EntryPtr} {p q : EntryPtr} (hp : P = some p) :
    (if q = p then f (s.entries p).children else (s.entries q).children) =
      if some q = P then f (s.entries q).children else (s.entries q).children := by
  subst hp
  by_cases hq : q = p
  · simp [hq]
  · simp [hq]

theorem link_parent {e : EntryPtr} (he : (s.entries e).parent = none)
    (hP : ∀ p, P = some p → p ≠ e) :
    ∃ t, (match P with | some p => s.addChild p e | none => some s) = some t ∧ Relinked s t ∧
      (∀ q, (t.entries q).parent = if q = e then P else (s.entries q).parent) ∧
      ∀ q, (t.entries q).children =
        if some q = P then (s.entries q).children ++ [e] else (s.entries q).children := by
  cases P with
  | none =>
    refine ⟨s, rfl, Relinked.refl s, fun q => ?_, by simp⟩
    split_ifs with hq
    · rw [hq, he]
    · rfl
  | some p =>
    obtain ⟨t, ht, hr, hp, hch⟩ := addChild_spec he (hP p rfl)
    exact ⟨t, ht, hr, hp, fun q => (hch q).trans (children_of_parent (f := (· ++ [e])) rfl)⟩

theorem unlink_parent {e : EntryPtr} (he : (s.entries e).parent = P)
    (hP : ∀ p, P = some p → p ≠ e) :
    ∃ t, (match P with | some p => s.removeChild p e | none => some s) = some t ∧ Relinked s t ∧
      (∀ q, (t.entries q).parent = if q = e then none else (s.entries q).parent) ∧
      ∀ q, (t.entries q).children =
        if some q = P then (s.entries q).children.filter (· ≠ e) else (s.entries q).children := by
  cases P with
  | none =>
    refine ⟨s, rfl, Relinked.refl s, fun q => ?_, by simp⟩
    split_ifs with hq
    · rw [hq, he]
    · rfl
  | some p =>
    obtain ⟨t, ht, hr, hp, hch⟩ := removeChild_spec he (hP p rfl)
    exact ⟨t, ht, hr, hp, fun q => (hch q).trans (children_of_parent (f := List.filter (· ≠ e)) rfl)⟩

/-! ## The relinking loops -/

theorem adopt_spec {e c : EntryPtr} (hec : e ≠ c)
    (hP : ∀ p, P = some p → p ≠ c ∧ p ≠ e) (hc : (s.entries c).parent = P) :
    ∃ t, adopt P e s c = some t ∧ Relinked s t ∧
      (∀ q, (t.entries q).parent = if q = c then some e else (s.entries q).parent) ∧
      ∀ q, (t.entries q).children =
        if q = e then (s.entries e).children ++ [c]
        else if some q = P then (s.entries q).children.filter (· ≠ c)
        else (s.entries q).children := by
  obtain ⟨t, ht, hr, hp, hch⟩ := unlink_parent hc fun p hp => (hP p hp).1
  obtain ⟨u, hu, hr', hp', hch'⟩ := addChild_spec (s := t) (p := e) (c := c) (by simp [hp]) hec
  refine ⟨u, ?_, hr.trans hr', fun q => ?_, fun q => ?_⟩
  · unfold adopt
    rw [if_pos hc]
    cases P with
    | none => rwa [Option.some_inj.mp ht]
    | some p => exact Option.bind_eq_some_iff.mpr ⟨t, ht, hu⟩
  · rw [hp', hp]
    split_ifs <;> rfl
  · rw [hch', hch e, hch q, if_neg fun he : some e = P => (hP e he.symm).2 rfl]

/-- **The loop of `insert`**: the descendants whose parent is `P` become children of `e`. -/
theorem adopt_fold {e : EntryPtr} (ds : List EntryPtr) (s : Rib)
    (hnd : ds.Nodup) (he : e ∉ ds) (hP : ∀ p, P = some p → p ∉ ds ∧ p ≠ e) :
    ∃ t, ds.foldlM (adopt P e) s = some t ∧ Relinked s t ∧
      (∀ q, (t.entries q).parent =
        if q ∈ ds ∧ (s.entries q).parent = P then some e else (s.entries q).parent) ∧
      ∀ q, (t.entries q).children =
        if q = e then (s.entries e).children ++ ds.filter fun c => (s.entries c).parent = P
        else if some q = P then
          (s.entries q).children.filter fun c => ¬ (c ∈ ds ∧ (s.entries c).parent = P)
        else (s.entries q).children := by
  induction ds generalizing s with
  | nil =>
    refine ⟨s, rfl, Relinked.refl s, by simp, fun q => ?_⟩
    split_ifs with hq <;> simp [hq]
  | cons c ds ih =>
    obtain ⟨hcd, hnd⟩ := List.nodup_cons.mp hnd
    rw [List.mem_cons, not_or] at he
    have hP' : ∀ p, P = some p → p ≠ c ∧ p ≠ e := fun p hp =>
      ⟨fun h => (hP p hp).1 (h ▸ List.mem_cons_self), (hP p hp).2⟩
    have hPd : ∀ p, P = some p → p ∉ ds ∧ p ≠ e := fun p hp =>
      ⟨fun h => (hP p hp).1 (List.mem_cons_of_mem _ h), (hP p hp).2⟩
    rw [List.foldlM_cons]
    by_cases hc : (s.entries c).parent = P
    · obtain ⟨t, ht, hr, hp, hch⟩ := adopt_spec he.1 hP' hc
      obtain ⟨u, hu, hr', hp', hch'⟩ := ih t hnd he.2 hPd
      -- the parents of the remaining descendants are those of `s`
      have hpar : ∀ d ∈ ds, (t.entries d).parent = (s.entries d).parent := fun d hd => by
        rw [hp, if_neg (ne_of_mem_of_not_mem hd hcd)]
      have hmem : ∀ d, d ∈ ds ∧ (t.entries d).parent = P ↔ d ∈ ds ∧ (s.entries d).parent = P :=
        fun d => and_congr_right fun hd => by rw [hpar d hd]
      refine ⟨u, by simp [ht, hu], hr.trans hr', fun q => ?_, fun q => ?_⟩
      · rw [hp', if_congr (hmem q) rfl rfl, hp]
        by_cases hqc : q = c
        · subst hqc
          simp [hcd, hc]
        · simp [hqc]
      · rw [hch', hch, hch, if_pos rfl]
        by_cases hqe : q = e
        · rw [if_pos hqe, if_pos hqe, List.filter_cons_of_pos (by simpa using hc),
            List.append_assoc, List.singleton_append]
          congr 2
          exact List.filter_congr fun d hd => by rw [hpar d hd]
        · rw [if_neg hqe, if_neg hqe, if_neg hqe]
          split_ifs with hqP
          · rw [List.filter_filter]
            refine List.filter_congr fun d _ => ?_
            by_cases hdc : d = c
            · subst hdc
              simp [hc]
            · simp only [hmem, List.mem_cons, hdc, false_or, ne_eq, not_false_eq_true,
                decide_true, Bool.and_true]
          · rfl
    · have hskip : adopt P e s c = some s := if_neg hc
      obtain ⟨u, hu, hr, hp, hch⟩ := ih s hnd he.2 hPd
      have hmem : ∀ d, d ∈ c :: ds ∧ (s.entries d).parent = P ↔ d ∈ ds ∧ (s.entries d).parent = P :=
        fun d => by
          rw [List.mem_cons]
          refine ⟨fun h => ⟨h.1.resolve_left ?_, h.2⟩, fun h => ⟨Or.inr h.1, h.2⟩⟩
          rintro rfl
          exact hc h.2
      refine ⟨u, by simp [hskip, hu], hr, fun q => ?_, fun q => ?_⟩
      · rw [hp, if_congr (hmem q) rfl rfl]
      · rw [hch, List.filter_cons_of_neg (by simpa using hc)]
        simp only [hmem]

theorem disown_spec {e c : EntryPtr} (hec : e ≠ c)
    (hP : ∀ p, P = some p → p ≠ c ∧ p ≠ e) (hc : (s.entries c).parent = some e) :
    ∃ t, disown P e s c = some t ∧ Relinked s t ∧
      (∀ q, (t.entries q).parent = if q = c then P else (s.entries q).parent) ∧
      ∀ q, (t.entries q).children =
        if q = e then (s.entries e).children.filter (· ≠ c)
        else if some q = P then (s.entries q).children ++ [c]
        else (s.entries q).children := by
  obtain ⟨t, ht, hr, hp, hch⟩ := removeChild_spec hc hec
  obtain ⟨u, hu, hr', hp', hch'⟩ := link_parent (s := t) (P := P) (e := c) (by simp [hp]) fun p hp => (hP p hp).1
  rw [disown, ht, Option.bind_some]
  refine ⟨u, hu, hr.trans hr', fun q => ?_, fun q => ?_⟩
  · rw [hp', hp]
    split_ifs <;> rfl
  · rw [hch', hch]
    by_cases hqe : q = e
    · rw [if_pos hqe, if_pos hqe, if_neg fun he => (hP q he.symm).2 hqe]
    · rw [if_neg hqe, if_neg hqe]

/-- **The loop of `eraseEntry`**: the children of `e` become children of `P`. -/
theorem disown_fold {e : EntryPtr} (cs : List EntryPtr) (s : Rib)
    (hnd : cs.Nodup) (he : e ∉ cs) (hP : ∀ p, P = some p → p ∉ cs ∧ p ≠ e)
    (hcs : ∀ c ∈ cs, (s.entries c).parent = some e) :
    ∃ t, cs.foldlM (disown P e) s = some t ∧ Relinked s t ∧
      (∀ q, (t.entries q).parent = if q ∈ cs then P else (s.entries q).parent) ∧
      ∀ q, q ≠ e → (t.entries q).children =
        if some q = P then (s.entries q).children ++ cs else (s.entries q).children := by
  induction cs generalizing s with
  | nil => exact ⟨s, rfl, Relinked.refl s, by simp, fun q _ => by split_ifs <;> simp⟩
  | cons c cs ih =>
    obtain ⟨hcc, hnd⟩ := List.nodup_cons.mp hnd
    rw [List.mem_cons, not_or] at he
    have hP' : ∀ p, P = some p → p ≠ c ∧ p ≠ e := fun p hp =>
      ⟨fun h => (hP p hp).1 (h ▸ List.mem_cons_self), (hP p hp).2⟩
    have hPd : ∀ p, P = some p → p ∉ cs ∧ p ≠ e := fun p hp =>
      ⟨fun h => (hP p hp).1 (List.mem_cons_of_mem _ h), (hP p hp).2⟩
    obtain ⟨t, ht, hr, hp, hch⟩ := disown_spec he.1 hP' (hcs c List.mem_cons_self)
    obtain ⟨u, hu, hr', hp', hch'⟩ := ih t hnd he.2 hPd fun d hd => by
      rw [hp, if_neg (ne_of_mem_of_not_mem hd hcc)]
      exact hcs d (List.mem_cons_of_mem _ hd)
    refine ⟨u, by simp [ht, hu], hr.trans hr', fun q => ?_, fun q hqe => ?_⟩
    · rw [hp', hp]
      by_cases hqc : q = c
      · subst hqc
        simp
      · simp [hqc]
    · rw [hch' q hqe, hch, if_neg hqe]
      split_ifs with hqP
      · rw [List.append_assoc, List.singleton_append]
      · rfl

/-! ## How the longest proper prefix moves -/

theorem length_of_eq_take {N m : Name} {i : ℕ} (hi : i < m.length) (h : N = m.take i) :
    N.length = i := by
  rw [h, List.length_take]
  omega

/-- The scan below `i` is the scan of the prefix of length `i`. -/
theorem findParentFrom_take {rib : OrdMap Name EntryPtr} {m : Name} {i : ℕ} (hi : i < m.length) :
    findParentFrom rib m i = findParentFrom rib (m.take i) (m.take i).length := by
  rw [length_of_eq_take hi rfl]
  refine findParentFrom_congr fun j hj => ?_
  rw [List.take_take, min_eq_left hj.le]

/-- **A new name `N` becomes the parent of the names below it that had `N`'s parent.** -/
theorem Tree.findParent_insert (h : Tree s) {N : Name} (hN : s.rib.find? N = none) (e : EntryPtr)
    (m : Name) :
    findParentFrom (s.rib.insert N e) m m.length =
      if (N <+: m ∧ N ≠ m) ∧ s.findParent m = s.findParent N then some e else s.findParent m := by
  by_cases hpre : N <+: m ∧ N ≠ m
  · obtain ⟨i, hi, rfl⟩ := proper_prefix_iff.mp hpre
    have hlen := length_of_eq_take hi rfl
    have hne : ∀ j < m.length, j ≠ i → m.take i ≠ m.take j := fun j hj hji he => by
      have := length_of_eq_take hj he
      omega
    by_cases hb : ∀ j, i < j → j < m.length → s.rib.find? (m.take j) = none
    · have hsame : s.findParent m = s.findParent (m.take i) := by
        rw [findParent, findParent, ← findParentFrom_take hi]
        refine findParentFrom_skip hi.le fun j h1 h2 => ?_
        rcases h1.eq_or_lt with rfl | h1
        · exact hN
        · exact hb j h1 h2
      rw [if_pos ⟨hpre, hsame⟩]
      refine findParentFrom_eq_some.mpr ⟨i, hi, OrdMap.find?_insert_self _ _ _, fun j h1 h2 => ?_⟩
      rw [OrdMap.find?_insert_of_ne _ (hne j h2 (by omega)), hb j h1 h2]
    · push Not at hb
      obtain ⟨j, hij, hj, hjs⟩ := hb
      cases hm : s.findParent m with
      | none => exact absurd (findParentFrom_eq_none.mp hm j hj) hjs
      | some q =>
        obtain ⟨k, hk, hq, hn⟩ := findParent_eq_some.mp hm
        have hik : i < k := by
          by_contra hc
          exact hjs (hn j (by omega) hj)
        -- the parent of `N` is shorter than `N`, so it is not `q`
        rw [if_neg]
        · refine findParentFrom_eq_some.mpr ⟨k, hk, ?_, fun j' h1 h2 => ?_⟩
          · rw [OrdMap.find?_insert_of_ne _ (hne k hk (by omega)), hq]
          · rw [OrdMap.find?_insert_of_ne _ (hne j' h2 (by omega)), hn j' h1 h2]
        · rintro ⟨-, he⟩
          obtain ⟨k', hk', hq', -⟩ := findParent_eq_some.mp he.symm
          have h1 := length_of_eq_take hk' rfl
          rw [h.inj hq' hq, length_of_eq_take hk rfl] at h1
          omega
  · rw [if_neg fun hc => hpre hc.1]
    refine findParentFrom_congr fun j hj => OrdMap.find?_insert_of_ne _ ?_ _
    rintro rfl
    exact hpre (proper_prefix_iff.mpr ⟨j, hj, rfl⟩)

/-- **The children of an erased name go to its parent.** -/
theorem Tree.findParent_erase (h : Tree s) {N : Name} {e : EntryPtr}
    (hN : s.rib.find? N = some e) (m : Name) :
    findParentFrom (s.rib.erase N) m m.length =
      if s.findParent m = some e then s.findParent N else s.findParent m := by
  cases hm : s.findParent m with
  | none =>
    rw [if_neg (by simp)]
    refine findParentFrom_eq_none.mpr fun j hj => ?_
    rw [OrdMap.find?_erase]
    split_ifs
    · rfl
    · exact findParentFrom_eq_none.mp hm j hj
  | some q =>
    obtain ⟨k, hk, hq, hn⟩ := findParent_eq_some.mp hm
    have hgone : ∀ j, k < j → j < m.length → (s.rib.erase N).find? (m.take j) = none :=
      fun j h1 h2 => by
        rw [OrdMap.find?_erase]
        split_ifs
        · rfl
        · exact hn j h1 h2
    by_cases hqe : q = e
    · subst hqe
      rw [if_pos rfl]
      obtain rfl : N = m.take k := h.inj hN hq
      rw [findParentFrom_skip hk.le, findParentFrom_take hk]
      · refine findParentFrom_congr fun j hj => OrdMap.find?_erase_of_ne _ fun he => ?_
        rw [length_of_eq_take hk rfl] at hj
        have h1 := congrArg List.length he
        rw [List.take_take, List.length_take, List.length_take] at h1
        omega
      · intro j h1 h2
        rcases h1.eq_or_lt with rfl | h1
        · exact OrdMap.find?_erase_self _ _
        · exact hgone j h1 h2
    · rw [if_neg (by simpa using hqe)]
      refine findParentFrom_eq_some.mpr ⟨k, hk, ?_, hgone⟩
      rw [OrdMap.find?_erase_of_ne, hq]
      rintro rfl
      exact hqe (Option.some.inj (hq.symm.trans hN))

/-! ## Descendants -/

/-- A scan that stops at the first failure finds every match of a downward-closed predicate. -/
theorem takeWhile_eq_filter {α : Type} {p : α → Bool} {l : List α}
    (h : l.Pairwise fun a b => p b → p a) : l.takeWhile p = l.filter p := by
  induction l with
  | nil => rfl
  | cons a l ih =>
    obtain ⟨ha, hl⟩ := List.pairwise_cons.mp h
    by_cases hp : p a
    · rw [List.takeWhile_cons_of_pos hp, List.filter_cons_of_pos hp, ih hl]
    · rw [List.takeWhile_cons_of_neg hp, List.filter_cons_of_neg hp]
      exact (List.filter_eq_nil_iff.mpr fun b hb hpb => hp (ha b hb hpb)).symm

/-- **The contiguous scan finds exactly the entries below `N`.** -/
theorem mem_findDescendants {N : Name} {e q : EntryPtr} (hN : s.rib.find? N = some e) :
    q ∈ s.findDescendants N ↔ ∃ m, s.rib.find? m = some q ∧ N <+: m ∧ N ≠ m := by
  have hscan : ((s.rib.after N).takeWhile fun b => N.isPrefixOf b.1) =
      (s.rib.after N).filter fun b => N.isPrefixOf b.1 := by
    refine takeWhile_eq_filter ((s.rib.sorted_after N).imp_of_mem fun {a b} ha _ hab hb => ?_)
    rw [List.isPrefixOf_iff_prefix] at hb ⊢
    exact prefix_of_le_of_le hb ((s.rib.mem_after.mp ha).2).le hab.le
  rw [findDescendants, hN, hscan]
  simp only [List.mem_map, List.mem_filter, OrdMap.mem_after, List.isPrefixOf_iff_prefix]
  constructor
  · rintro ⟨⟨m, q'⟩, ⟨⟨hm, hlt⟩, hpre⟩, rfl⟩
    exact ⟨m, s.rib.mem_toList.mp hm, hpre, hlt.ne⟩
  · rintro ⟨m, hm, hpre, hne⟩
    exact ⟨(m, q), ⟨⟨s.rib.mem_toList.mpr hm,
      lt_of_le_of_ne (not_lt.mp (not_lt_of_isPrefix hpre)) hne⟩, hpre⟩, rfl⟩

theorem nodup_map_snd {s : Rib} {l : List (Name × EntryPtr)} (hl : l.Sublist s.rib.toList)
    (hinj : ∀ {n m p}, s.rib.find? n = some p → s.rib.find? m = some p → n = m) :
    (l.map Prod.snd).Nodup := by
  have hnd : l.Nodup := ((List.Nodup.of_map Prod.fst s.rib.nodup_keys).sublist hl)
  refine List.Nodup.map_on (fun a ha b hb hab => ?_) hnd
  have h1 := s.rib.mem_toList.mp (hl.subset ha)
  have h2 := s.rib.mem_toList.mp (hl.subset hb)
  rw [hab] at h1
  exact Prod.ext (hinj h1 h2) hab

theorem nodup_findDescendants {N : Name}
    (hinj : ∀ {n m p}, s.rib.find? n = some p → s.rib.find? m = some p → n = m) :
    (s.findDescendants N).Nodup := by
  unfold findDescendants
  cases s.rib.find? N with
  | none => exact List.nodup_nil
  | some e => exact nodup_map_snd ((List.takeWhile_sublist _).trans (List.dropWhile_sublist _)) hinj

section Insert

variable (h : Tree s) {N : Name} (hN : s.rib.find? N = none) (route : Route)
include h hN

theorem Tree.find?_newEntry {m : Name} {q : EntryPtr} :
    (s.newEntry N route).rib.find? m = some q ↔
      m = N ∧ q = s.nEntries ∨ m ≠ N ∧ q ≠ s.nEntries ∧ s.rib.find? m = some q := by
  change (s.rib.insert N s.nEntries).find? m = some q ↔ _
  rw [OrdMap.find?_insert]
  by_cases hm : N = m
  · subst hm
    simp [eq_comm]
  · rw [if_neg hm]
    refine ⟨fun hq => Or.inr ⟨fun e => hm e.symm, (h.fresh hq).ne, hq⟩, ?_⟩
    rintro (⟨rfl, -⟩ | ⟨-, -, hq⟩)
    · exact absurd rfl hm
    · exact hq

theorem Tree.findParent_newEntry (m : Name) :
    (s.newEntry N route).findParent m =
      if (N <+: m ∧ N ≠ m) ∧ s.findParent m = s.findParent N then some s.nEntries
      else s.findParent m :=
  h.findParent_insert hN s.nEntries m

/-- **Linking a new name keeps the tree.** -/
theorem Tree.linkEntry : ∃ t, (s.newEntry N route).linkEntry N s.nEntries = some t ∧
    Relinked (s.newEntry N route) t ∧ Tree t := by
  set e := s.nEntries with he
  have hfresh : ∀ {n}, s.rib.find? n ≠ some e := fun hn => (h.fresh hn).ne he.symm
  have hself : (s.newEntry N route).findParent N = s.findParent N := by
    rw [h.findParent_newEntry hN, if_neg fun hc => hc.1.2 rfl]
  have hpar : ∀ {m p}, s.findParent m = some p → ∃ k, s.rib.find? k = some p ∧ k <+: m ∧ k ≠ m :=
    fun hm => by
      obtain ⟨k, hk, hp, -⟩ := findParent_eq_some.mp hm
      exact ⟨_, hp, proper_prefix_iff.mpr ⟨k, hk, rfl⟩⟩
  have hPe : ∀ p, s.findParent N = some p → p ≠ e := fun p hp hpe => by
    obtain ⟨k, hk, -⟩ := hpar hp
    exact hfresh (hpe ▸ hk)
  have hent : ∀ q, q ≠ e → (s.newEntry N route).entries q = s.entries q := fun q hq =>
    newEntry_entries_of_ne hq
  have hnew := s.newEntry_entries_self N route
  obtain ⟨s₂, h₂, hr₂, hp₂, hc₂⟩ := link_parent (s := s.newEntry N route) (P := s.findParent N)
    (e := e) (by rw [hnew]; rfl) hPe
  -- the descendants found by the scan
  have hfind : ∀ {m q}, s₂.rib.find? m = some q ↔ m = N ∧ q = e ∨ m ≠ N ∧ q ≠ e ∧
      s.rib.find? m = some q := fun {m q} => by
    rw [hr₂.rib]
    exact h.find?_newEntry hN route
  have hbound : s₂.rib.find? N = some e := hfind.mpr (Or.inl ⟨rfl, rfl⟩)
  have hmem : ∀ {q}, q ∈ s₂.findDescendants N ↔
      q ≠ e ∧ ∃ m, s.rib.find? m = some q ∧ N <+: m ∧ N ≠ m := fun {q} => by
    rw [mem_findDescendants hbound]
    constructor
    · rintro ⟨m, hm, hpre⟩
      rcases hfind.mp hm with ⟨rfl, -⟩ | ⟨-, hq, hm⟩
      · exact absurd rfl hpre.2
      · exact ⟨hq, m, hm, hpre⟩
    · rintro ⟨hq, m, hm, hpre⟩
      exact ⟨m, hfind.mpr (Or.inr ⟨fun e => hpre.2 e.symm, hq, hm⟩), hpre⟩
  have hinj₂ : ∀ {n m p}, s₂.rib.find? n = some p → s₂.rib.find? m = some p → n = m :=
    fun hn hm => by
      rcases hfind.mp hn with ⟨rfl, rfl⟩ | ⟨-, hq, hn⟩ <;> rcases hfind.mp hm with
        ⟨rfl, hq'⟩ | ⟨-, hq', hm⟩
      · rfl
      · exact absurd rfl hq'
      · exact absurd hq' hq
      · exact h.inj hn hm
  obtain ⟨t, ht, hr, hp, hc⟩ := adopt_fold (P := s.findParent N) (e := e) (s₂.findDescendants N) s₂
    (nodup_findDescendants hinj₂) (fun hq => (hmem.mp hq).1 rfl) fun p hp => ⟨fun hq => by
      -- the parent of `N` is not below `N`
      obtain ⟨-, m, hm, hpre, hne⟩ := hmem.mp hq
      obtain ⟨k, hk, hpre', hne'⟩ := hpar hp
      rw [h.inj hm hk] at hpre hne
      exact hne (hpre.eq_of_length_le hpre'.length_le), hPe p hp⟩
  refine ⟨t, ?_, hr₂.trans hr, ?_⟩
  · simp only [Rib.linkEntry, hself]
    exact Option.bind_eq_some_iff.mpr ⟨s₂, h₂, ht⟩
  have hrel := hr₂.trans hr
  have hbelow : ∀ {m q}, s.rib.find? m = some q →
      (q ∈ s₂.findDescendants N ↔ N <+: m ∧ N ≠ m) := fun {m q} hm => by
    rw [hmem]
    refine ⟨fun hx => ?_, fun hx => ⟨fun hq => hfresh (hq ▸ hm), m, hm, hx⟩⟩
    obtain ⟨-, m', hm', hpre⟩ := hx
    rwa [h.inj hm hm']
  have hparent₂ : ∀ {m q}, s.rib.find? m = some q → (s₂.entries q).parent = s.findParent m :=
    fun {m q} hm => by
      have hq : q ≠ e := fun hq => hfresh (hq ▸ hm)
      rw [hp₂, if_neg hq, hent q hq, h.parent hm]
  -- what became of an old entry's parent
  have hold : ∀ {m q}, s.rib.find? m = some q →
      (t.entries q).parent = (s.newEntry N route).findParent m := fun {m q} hm => by
    rw [hp, hparent₂ hm, h.findParent_newEntry hN, if_congr (and_congr_left fun _ => hbelow hm)
      rfl rfl]
  have hparent : ∀ {m q}, t.rib.find? m = some q → (t.entries q).parent = t.findParent m :=
    fun {m q} hm => by
      rw [hrel.findParent]
      rw [hrel.rib] at hm
      rcases (h.find?_newEntry hN route).mp hm with ⟨rfl, rfl⟩ | ⟨-, hq, hm⟩
      · rw [hp, hp₂, if_neg fun hx => (hmem.mp hx.1).1 rfl, if_pos rfl, hself]
      · exact hold hm
  have hname : ∀ {m q}, t.rib.find? m = some q → (t.entries q).name = m := fun {m q} hm => by
    rw [hrel.name]
    rw [hrel.rib] at hm
    rcases (h.find?_newEntry hN route).mp hm with ⟨rfl, rfl⟩ | ⟨-, hq, hm⟩
    · rw [hnew]
      rfl
    · rw [hent q hq, h.named hm]
  refine ⟨fun {m q} hm => ?_, hname, hparent, fun {m q} hm => ?_, fun {m q} hm c => ?_⟩
  · rw [hrel.nEntries]
    rw [hrel.rib] at hm
    rcases (h.find?_newEntry hN route).mp hm with ⟨-, rfl⟩ | ⟨-, -, hm⟩
    · exact Nat.lt_succ_self _
    · exact (h.fresh hm).trans (Nat.lt_succ_self _)
  · rw [hc, hc₂, hc₂]
    rw [hrel.rib] at hm
    rcases (h.find?_newEntry hN route).mp hm with ⟨-, rfl⟩ | ⟨-, hq, hm⟩
    · rw [if_pos rfl, if_neg fun hx => hPe _ hx.symm rfl, hnew]
      exact (nodup_findDescendants hinj₂).filter _
    · rw [if_neg hq, hent q hq]
      have hnd := h.nodup hm
      split_ifs
      · refine List.Nodup.filter _ (List.nodup_append'.mpr ⟨hnd, List.nodup_singleton e, ?_⟩)
        refine List.disjoint_singleton.mpr fun hx => ?_
        obtain ⟨⟨m', hm'⟩, -⟩ := (h.children hm e).mp hx
        exact hfresh hm'
      · exact hnd
  · have hlive : (∃ m, t.rib.find? m = some c) ↔ c = e ∨ c ≠ e ∧ ∃ m, s.rib.find? m = some c := by
      rw [hrel.rib]
      constructor
      · rintro ⟨m, hm⟩
        rcases (h.find?_newEntry hN route).mp hm with ⟨-, hc⟩ | ⟨-, hc, hm⟩
        · exact Or.inl hc
        · exact Or.inr ⟨hc, m, hm⟩
      · rintro (rfl | ⟨hc, m, hm⟩)
        · exact ⟨N, (h.find?_newEntry hN route).mpr (Or.inl ⟨rfl, rfl⟩)⟩
        · refine ⟨m, (h.find?_newEntry hN route).mpr (Or.inr ⟨?_, hc, hm⟩)⟩
          rintro rfl
          exact absurd hm (by simp [hN])
    have hpe : ∀ {m c}, s.rib.find? m = some c → s.findParent m ≠ some e := fun hm hx => by
      obtain ⟨k, hk, -⟩ := hpar hx
      exact hfresh hk
    rw [hlive, hp, hc, hc₂, hc₂, hnew]
    rw [hrel.rib] at hm
    have hce : c ∈ s₂.findDescendants N → c ≠ e ∧ ∃ m, s.rib.find? m = some c := fun hx => by
      obtain ⟨hc, m, hm, -⟩ := hmem.mp hx
      exact ⟨hc, m, hm⟩
    rcases (h.find?_newEntry hN route).mp hm with ⟨-, rfl⟩ | ⟨-, hq, hm⟩
    · rw [if_pos rfl, if_neg fun hx => hPe _ hx.symm rfl, List.mem_append, List.mem_filter,
        decide_eq_true_eq]
      constructor
      · rintro (hx | hx)
        · exact absurd hx List.not_mem_nil
        · exact ⟨Or.inr (hce hx.1), if_pos hx⟩
      · rintro ⟨hl, hx⟩
        right
        by_contra hno
        rw [if_neg hno] at hx
        rcases hl with rfl | ⟨-, m, hm⟩
        · rw [hp₂, if_pos rfl] at hx
          exact hPe _ hx rfl
        · rw [hparent₂ hm] at hx
          exact hpe hm hx
    · have hchild : c ∈ (s.entries q).children ↔ c ≠ e ∧ (∃ m, s.rib.find? m = some c) ∧
          (s₂.entries c).parent = some q := by
        rw [h.children hm]
        constructor
        · rintro ⟨⟨m, hm⟩, hx⟩
          exact ⟨fun hc => hfresh (hc ▸ hm), ⟨m, hm⟩, by rw [hparent₂ hm, ← h.parent hm, hx]⟩
        · rintro ⟨-, ⟨m, hm⟩, hx⟩
          exact ⟨⟨m, hm⟩, by rw [h.parent hm, ← hparent₂ hm, hx]⟩
      have hpe₂ : (s₂.entries e).parent = s.findParent N := by rw [hp₂, if_pos rfl]
      rw [if_neg hq, hent q hq]
      split_ifs with hqP hx hx
      · have hqe : ¬ e = q := fun hy => hq hy.symm
        simp [hx, hqe]
      · rw [List.mem_filter, decide_eq_true_eq, List.mem_append, List.mem_singleton, hchild]
        constructor
        · rintro ⟨⟨hc, hl, hy⟩ | rfl, -⟩
          · exact ⟨Or.inr ⟨hc, hl⟩, hy⟩
          · exact ⟨Or.inl rfl, hpe₂.trans hqP.symm⟩
        · rintro ⟨rfl | hl, hy⟩
          · exact ⟨Or.inr rfl, hx⟩
          · exact ⟨Or.inl ⟨hl.1, hl.2, hy⟩, hx⟩
      · rw [hchild, hx.2]
        exact ⟨fun hy => absurd hy.2.2.symm hqP, fun hy => absurd (Option.some.inj hy.2).symm hq⟩
      · rw [hchild]
        constructor
        · rintro ⟨hc, hl, hy⟩
          exact ⟨Or.inr ⟨hc, hl⟩, hy⟩
        · rintro ⟨rfl | hl, hy⟩
          · exact absurd (hpe₂.symm.trans hy).symm hqP
          · exact ⟨hl.1, hl.2, hy⟩

end Insert

section Erase

variable (h : Tree s) {N : Name} {e : EntryPtr} (hN : s.rib.find? N = some e)
include h hN

/-- **Taking a name out keeps the tree.** -/
theorem Tree.eraseEntry : ∃ t, s.eraseEntry N e = some t ∧
    Relinked { s with rib := s.rib.erase N } t ∧ Tree t := by
  have hlen : ∀ {m q}, s.findParent m = some q →
      ∃ k, s.rib.find? k = some q ∧ k.length < m.length := fun hm => by
    obtain ⟨k, hk, hp, -⟩ := findParent_eq_some.mp hm
    exact ⟨_, hp, by rw [length_of_eq_take hk rfl]; exact hk⟩
  have hPe : ∀ p, s.findParent N = some p → p ≠ e := by
    rintro p hp rfl
    obtain ⟨k, hk, hlt⟩ := hlen hp
    rw [h.inj hk hN] at hlt
    exact lt_irrefl _ hlt
  obtain ⟨s₂, h₂, hr₂, hp₂, hc₂⟩ := unlink_parent (h.parent hN) hPe
  have hcs : (s₂.entries e).children = (s.entries e).children := by
    rw [hc₂, if_neg fun hx => hPe e hx.symm rfl]
  have hmem := h.children hN
  have he : e ∉ (s.entries e).children := fun hx => by
    have hx' := ((hmem e).mp hx).2
    rw [h.parent hN] at hx'
    exact hPe e hx' rfl
  obtain ⟨t, ht, hr, hp, hc⟩ := disown_fold (P := s.findParent N) (e := e) _ s₂ (h.nodup hN) he
    (fun p hp => ⟨fun hx => by
      -- the parent of `N` is not a child of `N`
      obtain ⟨k, hk, hlt⟩ := hlen hp
      have hx' := ((hmem p).mp hx).2
      rw [h.parent hk] at hx'
      obtain ⟨k', hk', hlt'⟩ := hlen hx'
      rw [h.inj hk' hN] at hlt'
      omega, hPe p hp⟩)
    fun c hx => by
      rw [hp₂, if_neg (ne_of_mem_of_not_mem hx he)]
      exact ((hmem c).mp hx).2
  have hrel := hr₂.trans hr
  refine ⟨{ t with rib := t.rib.erase N }, ?_, ⟨by rw [hrel.rib], hrel.nEntries, hrel.faceEntries,
    hrel.nItems, hrel.name, hrel.routes, hrel.inheritedRoutes, hrel.capture⟩, ?_⟩
  · simp only [Rib.eraseEntry, h.parent hN]
    refine Option.bind_eq_some_iff.mpr ⟨s₂, h₂, ?_⟩
    rw [hcs, ht]
    rfl
  have hfind : ∀ {m q}, (t.rib.erase N).find? m = some q ↔ m ≠ N ∧ q ≠ e ∧
      s.rib.find? m = some q := fun {m q} => by
    rw [hrel.rib, OrdMap.find?_erase]
    by_cases hm : N = m
    · simp [hm]
    · rw [if_neg hm]
      refine ⟨fun hq => ⟨fun hx => hm hx.symm, ?_, hq⟩, fun hq => hq.2.2⟩
      rintro rfl
      exact hm (h.inj hN hq)
  have hchild : ∀ {m q}, s.rib.find? m = some q →
      (q ∈ (s.entries e).children ↔ s.findParent m = some e) := fun {m q} hm => by
    rw [hmem, h.parent hm]
    exact and_iff_right ⟨m, hm⟩
  have hparent : ∀ {m q}, q ≠ e → s.rib.find? m = some q → (t.entries q).parent =
      if s.findParent m = some e then s.findParent N else s.findParent m := fun {m q} hq hm => by
    rw [hp, if_congr (hchild hm) rfl rfl, hp₂, if_neg hq, h.parent hm]
  refine ⟨fun {m q} hm => ?_, fun {m q} hm => ?_, fun {m q} hm => ?_, fun {m q} hm => ?_,
    fun {m q} hm c => ?_⟩ <;> obtain ⟨-, hq, hm⟩ := hfind.mp hm
  · exact (h.fresh hm).trans_eq hrel.nEntries.symm
  · rw [← h.named hm]
    exact hrel.name q
  · refine (hparent hq hm).trans ?_
    rw [← h.findParent_erase hN, ← hrel.rib]
    rfl
  · change (t.entries q).children.Nodup
    rw [hc q hq, hc₂]
    split_ifs with hqP
    · refine List.nodup_append'.mpr ⟨(h.nodup hm).filter _, h.nodup hN, ?_⟩
      intro c hx hy
      have h1 := ((h.children hm c).mp (List.mem_of_mem_filter hx)).2
      rw [((hmem c).mp hy).2] at h1
      exact hq (Option.some.inj h1).symm
    · exact h.nodup hm
  · change c ∈ (t.entries q).children ↔ (∃ m, (t.rib.erase N).find? m = some c) ∧
      (t.entries c).parent = some q
    have hlive : (∃ m, (t.rib.erase N).find? m = some c) ↔ c ≠ e ∧ ∃ m, s.rib.find? m = some c := by
      constructor
      · rintro ⟨m, hm⟩
        exact ⟨(hfind.mp hm).2.1, m, (hfind.mp hm).2.2⟩
      · rintro ⟨hne, k, hk⟩
        refine ⟨k, hfind.mpr ⟨?_, hne, hk⟩⟩
        rintro rfl
        exact hne (Option.some.inj (hk.symm.trans hN))
    have hq' := h.children hm c
    rw [hlive, hc q hq, hc₂, hp, hp₂]
    by_cases hcc : c ∈ (s.entries e).children
    · have hce := (hmem c).mp hcc
      rw [if_pos hcc, and_iff_right ⟨ne_of_mem_of_not_mem hcc he, hce.1⟩]
      split_ifs with hqP
      · simp [hcc, hqP]
      · rw [hq', hce.2]
        exact ⟨fun hx => absurd (Option.some.inj hx.2).symm hq, fun hx => absurd hx.symm hqP⟩
    · rw [if_neg hcc]
      by_cases hce : c = e
      · rw [if_pos hce]
        split_ifs with hqP
        · simp [hce, he]
        · rw [hq', hce, h.parent hN]
          exact ⟨fun hx => absurd hx.2.symm hqP, fun hx => absurd rfl hx.1.1⟩
      · rw [if_neg hce]
        split_ifs with hqP
        · simp [hcc, hce, hq']
        · simp [hce, hq']

end Erase

/-! ## Whole calls -/

/-- The invariant does not read routes, face index or counters. -/
theorem Tree.congr {t : Rib} (h : Tree s) (hrib : t.rib = s.rib) (hn : t.nEntries = s.nEntries)
    (hname : ∀ q, (t.entries q).name = (s.entries q).name)
    (hparent : ∀ q, (t.entries q).parent = (s.entries q).parent)
    (hchildren : ∀ q, (t.entries q).children = (s.entries q).children) : Tree t where
  fresh hm := by
    rw [hn]
    exact h.fresh (hrib ▸ hm)
  named hm := by
    rw [hname]
    exact h.named (hrib ▸ hm)
  parent hm := by
    rw [hparent, findParent, hrib]
    exact h.parent (hrib ▸ hm)
  nodup hm := by
    rw [hchildren]
    exact h.nodup (hrib ▸ hm)
  children hm q := by
    rw [hchildren, hrib, hparent]
    exact h.children (hrib ▸ hm) q

theorem Tree.modify (h : Tree s) (p : EntryPtr) {f : RibEntry → RibEntry}
    (hname : ∀ e, (f e).name = e.name) (hparent : ∀ e, (f e).parent = e.parent)
    (hchildren : ∀ e, (f e).children = e.children) : Tree (s.modify p f) := by
  refine h.congr rfl rfl ?_ ?_ ?_ <;> intro q <;> by_cases hq : q = p
  all_goals simp [Rib.modify, hq, hname, hparent, hchildren]

theorem Tree.insert (h : Tree s) (name : Name) (route : Route) :
    ∃ t, s.insert name route = some t ∧ Tree t ∧
      ((∃ p, s.rib.find? name = some p ∧ (s.entries p).findRoute route = none ∧
          t = s.insertRouteAt p route) ∨
        (∃ p r, s.rib.find? name = some p ∧ (s.entries p).findRoute route = some r ∧
          t = s.modify p fun e => e.setRoute route) ∨
        s.rib.find? name = none ∧
          Relinked ((s.newEntry name route).emplaceFace route.faceId s.nEntries) t) := by
  cases hp : s.rib.find? name with
  | some p =>
    cases hr : (s.entries p).findRoute route with
    | none =>
      refine ⟨s.insertRouteAt p route, by simp [Rib.insert, hp, RibEntry.insertRoute, hr], ?_,
        Or.inl ⟨p, rfl, hr, rfl⟩⟩
      refine (h.modify p (f := fun e => (e.insertRoute route).1) ?_ ?_ ?_).congr rfl rfl
        (fun _ => rfl) (fun _ => rfl) fun _ => rfl
      all_goals
        intro e
        rw [RibEntry.insertRoute]
        split <;> rfl
    | some r =>
      refine ⟨_, by simp [Rib.insert, hp, RibEntry.insertRoute, hr], ?_,
        Or.inr (Or.inl ⟨p, r, rfl, hr, rfl⟩)⟩
      exact h.modify p (fun _ => rfl) (fun _ => rfl) fun _ => rfl
  | none =>
    obtain ⟨t, ht, hr, htree⟩ := h.linkEntry hp route
    refine ⟨t.emplaceFace route.faceId s.nEntries, by simp [Rib.insert, hp, ht],
      htree.congr rfl rfl (fun _ => rfl) (fun _ => rfl) fun _ => rfl, Or.inr (Or.inr ⟨rfl, ?_⟩)⟩
    exact ⟨hr.rib, hr.nEntries, by simp [emplaceFace, hr.faceEntries], hr.nItems, hr.name,
      hr.routes, hr.inheritedRoutes, hr.capture⟩

theorem Tree.eraseRouteAt (h : Tree s) (p : EntryPtr) (route : Route) :
    Tree (s.eraseRouteAt p route) := by
  have hm := h.modify p (f := fun e => e.eraseRoute route) ?_ ?_ ?_
  · rw [eraseRouteAt_eq]
    exact hm.congr rfl rfl (fun _ => rfl) (fun _ => rfl) fun _ => rfl
  all_goals
    intro e
    rw [RibEntry.eraseRoute]
    split <;> rfl

/-- What `erase` can do: nothing, take a route out of an entry, or take the entry out too. -/
theorem Tree.erase (h : Tree s) (name : Name) (route : Route) :
    ∃ t, s.erase name route = some t ∧ Tree t ∧
      (t = s ∧ (∀ p, s.rib.find? name = some p → (s.entries p).findRoute route = none) ∨
        ∃ p r, s.rib.find? name = some p ∧ (s.entries p).findRoute route = some r ∧
          (((s.eraseRouteAt p route).entries p).routes ≠ [] ∧ t = s.eraseRouteAt p route ∨
            ((s.eraseRouteAt p route).entries p).routes = [] ∧
              Relinked { s.eraseRouteAt p route with rib := s.rib.erase name } t)) := by
  cases hp : s.rib.find? name with
  | none => exact ⟨s, by simp [Rib.erase, hp], h, Or.inl ⟨rfl, by simp⟩⟩
  | some p =>
    cases hr : (s.entries p).findRoute route with
    | none => exact ⟨s, by simp [Rib.erase, hp, hr], h, Or.inl ⟨rfl, by simpa using hr⟩⟩
    | some r =>
      have htree := h.eraseRouteAt p route
      by_cases he : ((s.eraseRouteAt p route).entries p).routes = []
      · obtain ⟨t, ht, hrel, htree⟩ := htree.eraseEntry ((eraseRouteAt_rib p route).symm ▸ hp)
        rw [eraseRouteAt_rib] at hrel
        exact ⟨t, by simp [Rib.erase, hp, hr, he, ht], htree,
          Or.inr ⟨p, r, rfl, hr, Or.inr ⟨he, hrel⟩⟩⟩
      · exact ⟨_, by simp [Rib.erase, hp, hr, he], htree, Or.inr ⟨p, r, rfl, hr, Or.inl ⟨he, rfl⟩⟩⟩

theorem Tree.apply (h : Tree s) (op : RibOp) : ∃ t, s.apply op = some t ∧ Tree t := by
  cases op with
  | insert name route =>
    obtain ⟨t, ht, htree, -⟩ := h.insert name route
    exact ⟨t, ht, htree⟩
  | erase name route =>
    obtain ⟨t, ht, htree, -⟩ := h.erase name route
    exact ⟨t, ht, htree⟩

theorem run_tree (ops : List RibOp) : ∃ s, run ops = some s ∧ Tree s := by
  induction ops using List.reverseRecOn with
  | nil => exact ⟨empty, rfl, tree_empty⟩
  | append_singleton ops op ih =>
    obtain ⟨s, hs, htree⟩ := ih
    obtain ⟨t, ht, htree⟩ := htree.apply op
    exact ⟨t, by rw [run_concat, hs, Option.bind_some, ht], htree⟩

def LongestProperPrefix (s : Rib) (n : Name) (q : EntryPtr) : Prop :=
  ∃ k, (k <+: n ∧ k ≠ n) ∧ s.rib.find? k = some q ∧
    ∀ k', k' <+: n ∧ k' ≠ n → s.rib.find? k' ≠ none → k'.length ≤ k.length

theorem findParent_iff_longestProperPrefix {n : Name} {q : EntryPtr} :
    s.findParent n = some q ↔ s.LongestProperPrefix n q := by
  rw [findParent_eq_some]
  constructor
  · rintro ⟨i, hi, hq, hn⟩
    refine ⟨n.take i, proper_prefix_iff.mpr ⟨i, hi, rfl⟩, hq, fun k' hk' hs => ?_⟩
    obtain ⟨j, hj, rfl⟩ := proper_prefix_iff.mp hk'
    rw [length_of_eq_take hj rfl, length_of_eq_take hi rfl]
    by_contra hij
    exact hs (hn j (by omega) hj)
  · rintro ⟨k, hk, hq, hmax⟩
    obtain ⟨i, hi, rfl⟩ := proper_prefix_iff.mp hk
    refine ⟨i, hi, hq, fun j hij hj => ?_⟩
    by_contra hs
    have := hmax _ (proper_prefix_iff.mpr ⟨j, hj, rfl⟩) hs
    rw [length_of_eq_take hj rfl, length_of_eq_take hi rfl] at this
    omega

/-- **Every sequence of calls leaves a tree by longest proper prefix.** No assertion of `addChild`
or `removeChild` fails; the parent of each entry is the entry of its longest proper prefix; its
children are the entries whose parent it is, each once. -/
theorem run_nameTree (ops : List RibOp) :
    ∃ s, run ops = some s ∧ ∀ n p, s.rib.find? n = some p →
      (s.entries p).name = n ∧
      (∀ q, (s.entries p).parent = some q ↔ s.LongestProperPrefix n q) ∧
      (s.entries p).children.Nodup ∧
      ∀ q, q ∈ (s.entries p).children ↔
        (∃ m, s.rib.find? m = some q) ∧ (s.entries q).parent = some p := by
  obtain ⟨s, hs, h⟩ := run_tree ops
  refine ⟨s, hs, fun n p hp => ⟨h.named hp, fun q => ?_, h.nodup hp, h.children hp⟩⟩
  rw [h.parent hp, findParent_iff_longestProperPrefix]

end Ns3Ndn.Rib
