import Ns3Ndn.Rib.Count

/-!
# The face index of the RIB

`m_faceEntries` maps a face to the entries with a route on it, so that the routes of a destroyed
face can be removed. `insert` adds a pair for every new route, while `erase` removes one pair when
the last route of the entry on the face goes. A second origin on a face the entry already has
therefore leaves a pair behind.

* **`run_faceIndexed_iff`**: the index is exact, and a face is removed by one update for each of its
  routes, all along a run exactly when no new route of the run is on a face the entry already has.
-/

namespace Ns3Ndn.Rib

open OrdLib RunLib

variable {s t : Rib}

/-! ## Removal of a face -/

def enqueueRemoveFace (entry : RibEntry) (faceId : ℕ) : List (Name × Route) :=
  (entry.routes.filter fun r => r.faceId == faceId).map fun r => (entry.name, r)

def beginRemoveFace (s : Rib) (faceId : ℕ) : List (Name × Route) :=
  (s.faceEntries.filter fun b => b.1 == faceId).flatMap fun b =>
    enqueueRemoveFace (s.entries b.2) faceId

def beginRemoveFailedFaces (s : Rib) (activeFaceIds : List ℕ) : List (Name × Route) :=
  (s.faceEntries.filter fun b => ! activeFaceIds.contains b.1).flatMap fun b =>
    enqueueRemoveFace (s.entries b.2) b.1

def HasRoute (s : Rib) (faceId : ℕ) (u : Name × Route) : Prop :=
  ∃ p, s.rib.find? u.1 = some p ∧ u.2 ∈ (s.entries p).routes ∧ u.2.faceId = faceId

/-! ## The invariant -/

def OnFace (s : Rib) (f : ℕ) (p : EntryPtr) : Prop :=
  (∃ n, s.rib.find? n = some p) ∧ (s.entries p).hasFaceId f

/-- **The face index is exact.** -/
structure FaceIndexed (s : Rib) : Prop where
  once : ∀ f p, s.OnFace f p → s.faceEntries.count (f, p) = 1
  only : ∀ f p, (f, p) ∈ s.faceEntries → s.OnFace f p

def NewFace (s : Rib) : RibOp → Prop
  | .insert name route => ∀ p, s.rib.find? name = some p → (s.entries p).findRoute route = none →
      (s.entries p).hasFaceId route.faceId = false
  | .erase _ _ => True

theorem faceIndexed_empty : FaceIndexed empty where
  once f p h := by
    obtain ⟨⟨n, hn⟩, -⟩ := h
    cases hn
  only f p h := by cases h

theorem FaceIndexed.relinked (h : FaceIndexed s) (hr : Relinked s t) : FaceIndexed t := by
  have hon : ∀ f p, t.OnFace f p ↔ s.OnFace f p := fun f p => by
    rw [OnFace, OnFace, hr.rib, RibEntry.hasFaceId, RibEntry.hasFaceId, hr.routes]
  refine ⟨fun f p hp => ?_, fun f p hp => (hon f p).mpr (h.only f p ?_)⟩
  · rw [hr.faceEntries]
    exact h.once f p ((hon f p).mp hp)
  · rwa [hr.faceEntries] at hp

/-! ## One step -/

variable {e : RibEntry}

theorem hasFaceId_insertRoute {route : Route} (hr : e.findRoute route = none)
    (f : ℕ) : (e.insertRoute route).1.hasFaceId f = true ↔ e.hasFaceId f = true ∨ route.faceId = f := by
  simp [RibEntry.hasFaceId, RibEntry.insertRoute_routes hr]

variable {route r : Route}

theorem hasFaceId_setRoute (hr : e.findRoute route = some r)
    (f : ℕ) : (e.setRoute route).hasFaceId f = e.hasFaceId f := by
  obtain ⟨hsame, l₁, l₂, hl, hset, -⟩ := RibEntry.findRoute_split hr
  rw [RibEntry.hasFaceId, RibEntry.hasFaceId, hset, hl, List.any_append, List.any_append,
    List.any_cons, List.any_cons, (Route.sameFaceIdAndOrigin_iff.mp hsame).1]

theorem hasFaceId_eraseRoute (hr : e.findRoute route = some r)
    {f : ℕ} (hf : f ≠ route.faceId) : (e.eraseRoute route).hasFaceId f = e.hasFaceId f := by
  obtain ⟨hsame, l₁, l₂, hl, -, herase⟩ := RibEntry.findRoute_split hr
  have hrf : (r.faceId == f) = false := by
    rw [(Route.sameFaceIdAndOrigin_iff.mp hsame).1]
    simpa using fun h => hf h.symm
  rw [RibEntry.hasFaceId, RibEntry.hasFaceId, herase, hl, List.any_append, List.any_append,
    List.any_cons, hrf, Bool.false_or]

theorem hasFaceId_of_findRoute (hr : e.findRoute route = some r) :
    e.hasFaceId route.faceId = true := by
  obtain ⟨hsame, l₁, l₂, hl, -⟩ := RibEntry.findRoute_split hr
  rw [RibEntry.hasFaceId, hl]
  simp [(Route.sameFaceIdAndOrigin_iff.mp hsame).1]

variable {p : EntryPtr}

theorem mem_emplaceFace {f : ℕ} {b : ℕ × EntryPtr} :
    b ∈ (s.emplaceFace f p).faceEntries ↔ b = (f, p) ∨ b ∈ s.faceEntries :=
  List.mem_orderedInsert _

theorem count_emplaceFace {f : ℕ} (b : ℕ × EntryPtr) :
    (s.emplaceFace f p).faceEntries.count b =
      s.faceEntries.count b + if (f, p) = b then 1 else 0 := by
  rw [emplaceFace, (List.perm_orderedInsert _ _ _).count_eq, List.count_cons]
  simp

theorem FaceIndexed.count_eq_zero (h : FaceIndexed s) {f : ℕ}
    (hp : ¬ s.OnFace f p) : s.faceEntries.count (f, p) = 0 :=
  List.count_eq_zero.mpr fun hm => hp (h.only f p hm)

/-- A pair put into the index keeps it exact just when the pair was not there. -/
theorem FaceIndexed.emplace_iff (h : FaceIndexed s) {f : ℕ}
    (ht : t.faceEntries = (s.emplaceFace f p).faceEntries)
    (hon : ∀ g q, t.OnFace g q ↔ s.OnFace g q ∨ g = f ∧ q = p) :
    FaceIndexed t ↔ ¬ s.OnFace f p := by
  have hcount : ∀ b, t.faceEntries.count b =
      s.faceEntries.count b + if (f, p) = b then 1 else 0 := fun b => by
    rw [ht, count_emplaceFace]
  constructor
  · intro ht' hp
    have h1 := ht'.once f p ((hon f p).mpr (Or.inl hp))
    rw [hcount, h.once f p hp, if_pos rfl] at h1
    omega
  · intro hp
    refine ⟨fun g q hq => ?_, fun g q hq => ?_⟩
    · rw [hcount]
      by_cases hgq : (f, p) = (g, q)
      · cases hgq
        rw [h.count_eq_zero hp, if_pos rfl]
      · rw [if_neg hgq]
        refine h.once g q (((hon g q).mp hq).resolve_right ?_)
        rintro ⟨rfl, rfl⟩
        exact hgq rfl
    · rw [ht, mem_emplaceFace, Prod.mk.injEq] at hq
      exact (hon g q).mpr (hq.symm.imp_left (h.only g q))

theorem FaceIndexed.eraseRouteAt (h : FaceIndexed s) {n : Name}
    (hp : s.rib.find? n = some p) (hr : (s.entries p).findRoute route = some r) :
    FaceIndexed (s.eraseRouteAt p route) := by
  have hself := s.eraseRouteAt_entries_self p route
  have hlive : ∀ q, (∃ m, (s.eraseRouteAt p route).rib.find? m = some q) ↔
      ∃ m, s.rib.find? m = some q := fun q => by rw [eraseRouteAt_rib]
  -- only the pair of the erased route can change
  have hon : ∀ f q, (f, q) ≠ (route.faceId, p) →
      ((s.eraseRouteAt p route).OnFace f q ↔ s.OnFace f q) := fun f q hne => by
    rw [OnFace, OnFace, hlive]
    by_cases hqp : q = p
    · subst hqp
      rw [hself, hasFaceId_eraseRoute hr fun hf => hne (by rw [hf])]
    · rw [eraseRouteAt_entries_of_ne hqp]
  have hon' : (s.eraseRouteAt p route).OnFace route.faceId p ↔
      ((s.entries p).eraseRoute route).hasFaceId route.faceId = true := by
    rw [OnFace, hlive, hself]
    exact and_iff_right ⟨n, hp⟩
  have hwas : s.OnFace route.faceId p := ⟨⟨n, hp⟩, hasFaceId_of_findRoute hr⟩
  refine ⟨fun f q hq => ?_, fun f q hq => ?_⟩ <;> rw [eraseRouteAt_faceEntries] at * <;>
    by_cases hne : (f, q) = (route.faceId, p)
  · cases hne
    rw [if_pos (hon'.mp hq)]
    exact h.once _ _ hwas
  · have h1 := h.once f q ((hon f q hne).mp hq)
    split_ifs
    · exact h1
    · rwa [List.count_erase_of_ne hne]
  · cases hne
    rw [hon']
    by_contra hno
    rw [if_neg hno] at hq
    have h1 := List.count_pos_iff.mpr hq
    rw [List.count_erase_self, h.once _ _ hwas] at h1
    exact lt_irrefl _ h1
  · rw [hon f q hne]
    split_ifs at hq
    · exact h.only f q hq
    · exact h.only f q (List.mem_of_mem_erase hq)

theorem FaceIndexed.eraseName (h : FaceIndexed s) {n : Name}
    (hp : s.rib.find? n = some p) (he : (s.entries p).routes = []) :
    FaceIndexed { s with rib := s.rib.erase n } := by
  have hon : ∀ f q, OnFace { s with rib := s.rib.erase n } f q ↔ s.OnFace f q := fun f q => by
    refine and_congr_left fun hf => ⟨?_, ?_⟩
    · rintro ⟨m, hm⟩
      change (s.rib.erase n).find? m = some q at hm
      rw [OrdMap.find?_erase] at hm
      split_ifs at hm
      exact ⟨m, hm⟩
    · rintro ⟨m, hm⟩
      refine ⟨m, (s.rib.find?_erase_of_ne fun hnm => ?_).trans hm⟩
      obtain rfl := Option.some.inj (hp.symm.trans (hnm ▸ hm))
      rw [RibEntry.hasFaceId, he] at hf
      cases hf
  exact ⟨fun f q hq => h.once f q ((hon f q).mp hq), fun f q hq => (hon f q).mpr (h.only f q hq)⟩

/-- **A call keeps the index exact just when it adds no second route on a face.** -/
theorem FaceIndexed.apply (h : FaceIndexed s) (htree : Tree s) {op : RibOp}
    (ht : s.apply op = some t) : FaceIndexed t ↔ s.NewFace op := by
  cases op with
  | insert name route =>
    obtain ⟨t', ht', -, hcases⟩ := htree.insert name route
    obtain rfl := Option.some.inj (ht'.symm.trans ht)
    rcases hcases with ⟨p, hp, hr, rfl⟩ | ⟨p, r, hp, hr, rfl⟩ | ⟨hn, hrel⟩
    · rw [h.emplace_iff (t := s.insertRouteAt p route) (f := route.faceId) (p := p) rfl
        fun g q => ?_]
      · simp only [NewFace, hp, Option.some.injEq, forall_eq', hr, OnFace, not_and,
          Bool.not_eq_true, true_imp_iff]
        exact forall_prop_of_true ⟨name, hp⟩
      · change (∃ m, s.rib.find? m = some q) ∧ _ ↔ _
        by_cases hqp : q = p
        · subst hqp
          rw [insertRouteAt_entries_self, hasFaceId_insertRoute hr, OnFace]
          have hlive : ∃ m, s.rib.find? m = some q := ⟨name, hp⟩
          rw [and_iff_right hlive, and_iff_right hlive, and_iff_left rfl, @eq_comm _ g]
        · rw [insertRouteAt_entries_of_ne hqp, OnFace]
          simp [hqp]
    · refine iff_of_true ⟨fun f q hq => h.once f q ?_, fun f q hq => ?_⟩ fun p' hp' hr' => ?_
      · refine ⟨hq.1, ?_⟩
        by_cases hqp : q = p
        · subst hqp
          rw [← hasFaceId_setRoute hr, ← modify_entries_self (s := s) q (·.setRoute route)]
          exact hq.2
        · rw [← modify_entries_of_ne hqp (·.setRoute route)]
          exact hq.2
      · obtain ⟨hlive, hf⟩ := h.only f q hq
        refine ⟨hlive, ?_⟩
        by_cases hqp : q = p
        · subst hqp
          rw [modify_entries_self, hasFaceId_setRoute hr]
          exact hf
        · rw [modify_entries_of_ne hqp]
          exact hf
      · rw [hp] at hp'
        cases hp'
        rw [hr] at hr'
        cases hr'
    · have hnew : FaceIndexed ((s.newEntry name route).emplaceFace route.faceId s.nEntries) := by
        have hno : ∀ g, ¬ s.OnFace g s.nEntries := fun g hg => by
          obtain ⟨⟨m, hm⟩, -⟩ := hg
          exact (htree.fresh hm).ne rfl
        refine (h.emplace_iff (t := (s.newEntry name route).emplaceFace route.faceId s.nEntries) rfl
          fun g q => ?_).mpr (hno route.faceId)
        change (∃ m, (s.newEntry name route).rib.find? m = some q) ∧
          ((s.newEntry name route).entries q).hasFaceId g = true ↔ _
        simp only [htree.find?_newEntry hn route]
        by_cases hq : q = s.nEntries
        · subst hq
          rw [newEntry_entries_self, hasFaceId_insertRoute rfl]
          simp [hno, RibEntry.hasFaceId, @eq_comm _ g]
        · rw [newEntry_entries_of_ne hq, OnFace]
          have hm : ∀ m, s.rib.find? m = some q → m ≠ name := by
            rintro m hm rfl
            rw [hn] at hm
            cases hm
          simp only [hq, and_false, false_or, ne_eq, not_false_eq_true, true_and, or_false]
          refine and_congr_left fun _ => exists_congr fun m => ?_
          exact ⟨fun hm => hm.2, fun hx => ⟨hm m hx, hx⟩⟩
      refine iff_of_true (hnew.relinked hrel) fun p' hp' _ => ?_
      rw [hn] at hp'
      cases hp'
  | erase name route =>
    obtain ⟨t', ht', -, hcases⟩ := htree.erase name route
    obtain rfl := Option.some.inj (ht'.symm.trans ht)
    refine iff_of_true ?_ trivial
    rcases hcases with ⟨rfl, -⟩ | ⟨p, r, hp, hr, ⟨-, rfl⟩ | ⟨he, hrel⟩⟩
    · exact h
    · exact h.eraseRouteAt hp hr
    · have hgone := (h.eraseRouteAt hp hr).eraseName
        ((eraseRouteAt_rib p route).symm ▸ hp) he
      rw [eraseRouteAt_rib] at hgone
      exact hgone.relinked hrel

/-! ## Removal by the index -/

theorem FaceIndexed.nodup (h : FaceIndexed s) : s.faceEntries.Nodup := by
  refine List.nodup_iff_count_le_one.mpr fun b => ?_
  by_cases hb : b ∈ s.faceEntries
  · exact (h.once b.1 b.2 (h.only b.1 b.2 hb)).le
  · rw [List.count_eq_zero.mpr hb]
    exact Nat.zero_le 1

theorem mem_enqueueRemoveFace {f : ℕ} {u : Name × Route} :
    u ∈ enqueueRemoveFace e f ↔ u.1 = e.name ∧ u.2 ∈ e.routes ∧ u.2.faceId = f := by
  obtain ⟨n, r⟩ := u
  simp only [enqueueRemoveFace, List.mem_map, List.mem_filter, beq_iff_eq, Prod.mk.injEq]
  constructor
  · rintro ⟨r', hr, rfl, rfl⟩
    exact ⟨rfl, hr⟩
  · rintro ⟨rfl, hr⟩
    exact ⟨r, hr, rfl, rfl⟩

theorem nodup_enqueueRemoveFace (h : e.Keyed) (f : ℕ) :
    (enqueueRemoveFace e f).Nodup := by
  have hnd : e.routes.Nodup := h.imp fun {a b} hab he => hab (by simp [he, Route.sameFaceIdAndOrigin])
  exact (hnd.filter _).map fun a b hab => (Prod.mk.inj hab).2

/-- **An exact index removes a face by one update for each of its routes.** -/
theorem FaceIndexed.beginRemoveFace (h : FaceIndexed s) (htree : Tree s) (hc : Counted s) (f : ℕ) :
    (s.beginRemoveFace f).Nodup ∧ ∀ u, u ∈ s.beginRemoveFace f ↔ s.HasRoute f u := by
  have hlive : ∀ b ∈ s.faceEntries.filter fun b => b.1 == f,
      b.1 = f ∧ ∃ n, s.rib.find? n = some b.2 := fun b hb => by
    obtain ⟨hb, hf⟩ := List.mem_filter.mp hb
    exact ⟨by simpa using hf, (h.only b.1 b.2 hb).1⟩
  constructor
  · refine List.nodup_flatMap.mpr ⟨fun b hb => ?_, (h.nodup.filter _).imp_of_mem fun {a b} ha hb hab => ?_⟩
    · obtain ⟨-, n, hn⟩ := hlive b hb
      exact nodup_enqueueRemoveFace (hc.keyed hn) f
    · -- different entries have different names
      intro u hu hu'
      obtain ⟨hfa, n, hn⟩ := hlive a ha
      obtain ⟨hfb, m, hm⟩ := hlive b hb
      have h1 := (mem_enqueueRemoveFace.mp hu).1
      have h2 := (mem_enqueueRemoveFace.mp hu').1
      rw [htree.named hn] at h1
      rw [htree.named hm, h1] at h2
      subst h2
      exact hab (Prod.ext (hfa.trans hfb.symm) (Option.some.inj (hn.symm.trans hm)))
  · intro u
    simp only [Rib.beginRemoveFace, List.mem_flatMap, mem_enqueueRemoveFace]
    constructor
    · rintro ⟨b, hb, hu, hr, hf⟩
      obtain ⟨-, n, hn⟩ := hlive b hb
      rw [htree.named hn] at hu
      exact ⟨b.2, hu ▸ hn, hr, hf⟩
    · rintro ⟨p, hp, hr, hf⟩
      refine ⟨(f, p), List.mem_filter.mpr ⟨?_, by simp⟩, (htree.named hp).symm, hr, hf⟩
      have hon : s.OnFace f p :=
        ⟨⟨_, hp⟩, List.any_eq_true.mpr ⟨u.2, hr, by simpa using hf⟩⟩
      exact List.count_pos_iff.mp (by rw [h.once f p hon]; exact Nat.one_pos)

/-- **The face index is exact, and removing a face enqueues one update for each of its routes, all
along a run exactly when no new route of the run is on a face its entry already has.** -/
theorem run_faceIndexed_iff (ops : List RibOp) :
    (∀ pre, pre <+: ops → ∃ s, run pre = some s ∧ FaceIndexed s ∧
        ∀ f, (s.beginRemoveFace f).Nodup ∧ ∀ u, u ∈ s.beginRemoveFace f ↔ s.HasRoute f u) ↔
      ∀ pre op, pre ++ [op] <+: ops → ∀ s, run pre = some s → s.NewFace op := by
  have hexact : ∀ pre, (∃ s, run pre = some s ∧ FaceIndexed s ∧
      ∀ f, (s.beginRemoveFace f).Nodup ∧ ∀ u, u ∈ s.beginRemoveFace f ↔ s.HasRoute f u) ↔
      ∃ s, run pre = some s ∧ FaceIndexed s := fun pre => by
    obtain ⟨s, hs, htree, hc⟩ := run_tree_counted pre
    simp only [hs, Option.some.injEq, exists_eq_left']
    exact ⟨fun h => h.1, fun h => ⟨h, h.beginRemoveFace htree hc⟩⟩
  simp only [hexact]
  refine forall_prefix_iff_forall_step (P := fun pre => ∃ s, run pre = some s ∧ FaceIndexed s)
    (Q := fun pre op => ∀ s, run pre = some s → s.NewFace op) ⟨empty, rfl, faceIndexed_empty⟩ ?_ ops
  rintro pre op ⟨s, hs, h⟩
  obtain ⟨s', hs', htree⟩ := run_tree pre
  obtain rfl := Option.some.inj (hs'.symm.trans hs)
  obtain ⟨t, ht, -⟩ := htree.apply op
  have hrun : run (pre ++ [op]) = some t := by rw [run_concat, hs, Option.bind_some, ht]
  simp only [hrun, hs, Option.some.injEq, exists_eq_left', forall_eq']
  exact h.apply htree ht

/-- Two origins on one face and then neither: the index still has a pair for the erased entry. -/
theorem not_faceIndexed_twoOrigins : ¬ ∃ s,
    run [.insert [] { faceId := 1, origin := 0 }, .insert [] { faceId := 1, origin := 255 },
      .erase [] { faceId := 1, origin := 0 }, .erase [] { faceId := 1, origin := 255 }] = some s ∧
      FaceIndexed s := by
  rintro ⟨s, hs, h⟩
  obtain rfl := Option.some.inj hs
  obtain ⟨⟨n, hn⟩, -⟩ := h.only 1 0 (by decide)
  cases hn

end Ns3Ndn.Rib
