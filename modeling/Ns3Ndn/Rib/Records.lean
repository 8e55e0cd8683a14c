import Ns3Ndn.Rib.Queue

/-!
# What the updater computes

The updates of a batch are apart by face, no two of them change the same next hop, and inherited
routes are recorded only for entries that exist once the batch has been applied, so that the
assertion of `modifyInheritedRoutes` cannot fail.

* `FibUpdater.Valid`, kept by each case of the updater;
* **`FibUpdater.computeUpdates_valid`**, `Rib.modifyInheritedRoutes_ok`.
-/

namespace Ns3Ndn

open OrdLib

namespace FibUpdate

def target (u : FibUpdate) : Name × ℕ := (u.name, u.faceId)

theorem sameTarget_iff {u v : FibUpdate} : u.sameTarget v = true ↔ u.target = v.target := by
  simp [sameTarget, target]

end FibUpdate

/-! ## Entries below a name -/

namespace Rib

variable {s : Rib}

def Below (s : Rib) (name : Name) (q : EntryPtr) : Prop :=
  ∃ m, s.rib.find? m = some q ∧ name <+: m ∧ name ≠ m

theorem Tree.below_child (h : Tree s) {n : Name} {p q : EntryPtr} (hp : s.rib.find? n = some p)
    (hq : q ∈ (s.entries p).children) : s.Below n q := by
  obtain ⟨⟨m, hm⟩, hpar⟩ := (h.children hp q).mp hq
  rw [h.parent hm, findParent_eq_some] at hpar
  obtain ⟨k, hk, hpk, -⟩ := hpar
  obtain rfl := h.inj hp hpk
  exact ⟨m, hm, proper_prefix_iff.mpr ⟨k, hk, rfl⟩⟩

theorem Tree.below_trans (h : Tree s) {n : Name} {p q : EntryPtr} (hp : s.Below n p)
    (hq : q ∈ (s.entries p).children) : s.Below n q := by
  obtain ⟨m, hm, hnm, hne⟩ := hp
  obtain ⟨k, hk, hmk, hne'⟩ := h.below_child hm hq
  refine ⟨k, hk, hnm.trans hmk, ?_⟩
  rintro rfl
  exact hne (hnm.eq_of_length_le hmk.length_le)

end Rib

namespace FibUpdater

variable {f : ℕ} {P : Name → Prop} {u : FibUpdater} {s : Rib}

theorem put_cons (z : FibUpdate) (updates : List FibUpdate) (x : FibUpdate) :
    put (z :: updates) x = if z.target = x.target then x :: updates else z :: put updates x := by
  unfold put
  by_cases hz : z.sameTarget x = true
  · rw [if_pos (FibUpdate.sameTarget_iff.mp hz), if_pos (by simp [hz]), List.replaceF_cons_of_some]
    rw [if_pos hz]
  · rw [if_neg (mt FibUpdate.sameTarget_iff.mpr hz), List.any_cons, Bool.eq_false_iff.mpr hz,
      Bool.false_or, List.replaceF_cons_of_none _ (by rw [if_neg hz])]
    split_ifs <;> rfl

theorem mem_put {updates : List FibUpdate} {x y : FibUpdate} (h : y ∈ put updates x) :
    y = x ∨ y ∈ updates := by
  induction updates with
  | nil => exact Or.inl (List.mem_singleton.mp h)
  | cons z updates ih =>
    rw [put_cons] at h
    split_ifs at h
    · exact (List.mem_cons.mp h).imp_right (List.mem_cons_of_mem z)
    · rcases List.mem_cons.mp h with rfl | h
      · exact Or.inr List.mem_cons_self
      · exact (ih h).imp_right (List.mem_cons_of_mem z)

theorem map_target_put (updates : List FibUpdate) (x : FibUpdate) :
    (put updates x).map FibUpdate.target =
      if x.target ∈ updates.map FibUpdate.target then updates.map FibUpdate.target
      else updates.map FibUpdate.target ++ [x.target] := by
  induction updates with
  | nil => rfl
  | cons z updates ih =>
    rw [put_cons]
    by_cases hz : z.target = x.target
    · rw [if_pos hz, List.map_cons, List.map_cons, hz, if_pos List.mem_cons_self]
    · rw [if_neg hz, List.map_cons, List.map_cons, ih]
      simp only [List.mem_cons, Ne.symm hz, false_or]
      split_ifs <;> rfl

theorem nodup_target_put {updates : List FibUpdate} (x : FibUpdate)
    (h : (updates.map FibUpdate.target).Nodup) : ((put updates x).map FibUpdate.target).Nodup := by
  rw [map_target_put]
  split_ifs with hx
  · exact h
  · exact h.append (List.nodup_singleton _) (List.disjoint_singleton.mpr hx)

/-! ## Validity -/

/-- **The lists of the updater for a batch on the face `f`**, with records for names in `P`. -/
structure Valid (f : ℕ) (P : Name → Prop) (u : FibUpdater) : Prop where
  face : u.batchFaceId = f
  batch : ∀ x ∈ u.updatesForBatchFaceId, x.faceId = f
  nonBatch : ∀ x ∈ u.updatesForNonBatchFaceId, x.faceId ≠ f
  batch_nodup : (u.updatesForBatchFaceId.map FibUpdate.target).Nodup
  nonBatch_nodup : (u.updatesForNonBatchFaceId.map FibUpdate.target).Nodup
  records : ∀ x ∈ u.inheritedRoutes, P x.name

theorem valid_init (f : ℕ) (P : Name → Prop) : Valid f P { batchFaceId := f } where
  face := rfl
  batch _ h := by cases h
  nonBatch _ h := by cases h
  batch_nodup := List.nodup_nil
  nonBatch_nodup := List.nodup_nil
  records _ h := by cases h

section

variable (h : Valid f P u)

include h

theorem Valid.addFibUpdate (x : FibUpdate) : Valid f P (u.addFibUpdate x) := by
  unfold FibUpdater.addFibUpdate
  split_ifs with hx
  · refine ⟨h.face, fun y hy => ?_, h.nonBatch, nodup_target_put x h.batch_nodup, h.nonBatch_nodup,
      h.records⟩
    rcases mem_put hy with rfl | hy
    · rw [hx, h.face]
    · exact h.batch y hy
  · refine ⟨h.face, h.batch, fun y hy => ?_, h.batch_nodup, nodup_target_put x h.nonBatch_nodup,
      h.records⟩
    rcases mem_put hy with rfl | hy
    · rwa [h.face] at hx
    · exact h.nonBatch y hy

theorem Valid.record {x : RibUpdate} (hx : P x.name) : Valid f P { u with inheritedRoutes := u.inheritedRoutes ++ [x] } := by
  refine ⟨h.face, h.batch, h.nonBatch, h.batch_nodup, h.nonBatch_nodup, fun y hy => ?_⟩
  rcases List.mem_append.mp hy with hy | hy
  · exact h.records y hy
  · rwa [List.mem_singleton.mp hy]

theorem Valid.inherit {name : Name} (hn : P name) (route : Route) :
    Valid f P (u.inherit name route) :=
  (h.record hn).addFibUpdate _

theorem Valid.addInheritedRoutes {entry : RibEntry} (hn : P entry.name) (routes : RouteSet) :
    Valid f P (u.addInheritedRoutes entry routes) := by
  refine List.foldlRecOn _ _ h fun u hu route _ => ?_
  split_ifs
  · exact hu
  · exact hu.inherit hn route

theorem Valid.addInheritedRoutesExcept {name : Name} (hn : P name) (routes : RouteSet) (ignore : Route) :
    Valid f P (u.addInheritedRoutesExcept name routes ignore) := by
  refine List.foldlRecOn _ _ h fun u hu route _ => ?_
  split_ifs
  · exact hu
  · exact hu.inherit hn route

theorem Valid.removeInheritedRoutes {entry : RibEntry} (hn : P entry.name) (routes : RouteSet) :
    Valid f P (u.removeInheritedRoutes entry routes) := by
  refine List.foldlRecOn _ _ h fun u hu route _ => ?_
  split_ifs
  · exact (hu.record hn).addFibUpdate _
  · exact hu

theorem Valid.updateOwnCost {u' : FibUpdater} {entry : RibEntry} {route existingRoute : Route}
    (hu : u.updateOwnCost entry route existingRoute = some u') : Valid f P u' := by
  unfold FibUpdater.updateOwnCost at hu
  split_ifs at hu
  · cases hu
    exact h
  · cases hl : entry.getRouteWithLowestCostByFaceId route.faceId with
    | none => simp [hl] at hu
    | some lowest =>
      rw [hl] at hu
      dsimp only at hu
      split_ifs at hu
      · cases hu
        exact h.addFibUpdate _
      · cases hp : entry.getRouteWithLowestCostAndChildInheritByFaceId route.faceId with
        | none => simp [hp] at hu
        | some prev =>
          rw [hp] at hu
          cases hu
          exact h.addFibUpdate _
      · cases hu
        exact h

theorem Valid.createFibUpdatesForErasedRibEntry (entry : RibEntry) :
    Valid f P (u.createFibUpdatesForErasedRibEntry entry) :=
  List.foldlRecOn _ _ h fun _ hu _ _ => hu.addFibUpdate _

end

/-! ## The cases -/

section Sweep

variable {N : Name} (htree : s.Tree) (hP : ∀ q, s.Below N q → P (s.entries q).name)
include htree hP

variable {children : List EntryPtr}

theorem Valid.traverseSubTrees {fuel : ℕ} {toAdd toRemove : RouteSet}
    (h : Valid f P u) (hc : ∀ q ∈ children, s.Below N q) :
    Valid f P (traverseSubTrees s fuel u children toAdd toRemove) := by
  induction fuel generalizing u children toAdd toRemove with
  | zero => exact h
  | succ fuel ih =>
    refine List.foldlRecOn _ _ h fun u hu q hq => ?_
    have hbelow := hc q hq
    dsimp only
    split_ifs
    · exact hu
    · refine ih ?_ fun q' hq' => htree.below_trans hbelow hq'
      exact (hu.removeInheritedRoutes (hP q hbelow) _).addInheritedRoutes (hP q hbelow) _

theorem Valid.modifyChildrensInheritedRoutes (h : Valid f P u)
    (hc : ∀ q ∈ children, s.Below N q) (toAdd toRemove : RouteSet) :
    Valid f P (u.modifyChildrensInheritedRoutes s children toAdd toRemove) :=
  h.traverseSubTrees htree hP hc

theorem Valid.createFibUpdatesForNewRibEntry (h : Valid f P u)
    (hN : P N) (hc : ∀ q ∈ children, s.Below N q) (route : Route) :
    Valid f P (u.createFibUpdatesForNewRibEntry s N route children) := by
  unfold FibUpdater.createFibUpdatesForNewRibEntry
  have hadd := h.addFibUpdate (.createAddUpdate N route.faceId route.cost)
  cases route.isChildInherit <;> cases route.isRibCapture
  · exact hadd.addInheritedRoutesExcept hN _ _
  · exact hadd.modifyChildrensInheritedRoutes htree hP hc _ _
  · exact (hadd.addInheritedRoutesExcept hN _ _).modifyChildrensInheritedRoutes htree hP hc _ _
  · exact hadd.modifyChildrensInheritedRoutes htree hP hc _ _

section Entry

variable {entry : RibEntry} (hc : ∀ q ∈ entry.children, s.Below N q)
include hc

variable (h : Valid f P u)

include h

theorem Valid.createFibUpdatesForNewRoute (route : Route) {captureWasTurnedOn : Bool}
    (hN : captureWasTurnedOn = true → P entry.name) :
    Valid f P (u.createFibUpdatesForNewRoute s entry route captureWasTurnedOn) := by
  unfold FibUpdater.createFibUpdatesForNewRoute
  have hremove : Valid f P (if captureWasTurnedOn then
      u.removeInheritedRoutes entry (s.getAncestorRoutes entry) else u) :=
    iteInduction (fun hon => h.removeInheritedRoutes (hN hon) _) fun _ => h
  have hsweep := hremove.modifyChildrensInheritedRoutes htree hP hc
  exact iteInduction (fun _ => (hsweep _ _).addFibUpdate _) fun _ => hsweep _ _

theorem Valid.updateChildInherit (route existingRoute : Route) :
    Valid f P (u.updateChildInherit s entry route existingRoute) := by
  have hsweep := h.modifyChildrensInheritedRoutes htree hP hc
  refine iteInduction (fun _ => iteInduction (fun _ => hsweep _ _) fun _ => h) fun _ => ?_
  exact iteInduction (fun _ => hsweep _ _) fun _ => h

theorem Valid.updateCapture (hN : P entry.name) (route existingRoute : Route) :
    Valid f P (u.updateCapture s entry route existingRoute) := by
  refine iteInduction (fun _ => ?_) fun _ => iteInduction (fun _ => ?_) fun _ => h
  · exact (h.removeInheritedRoutes hN _).modifyChildrensInheritedRoutes htree hP hc _ _
  · exact (h.addInheritedRoutes hN _).modifyChildrensInheritedRoutes htree hP hc _ _

theorem Valid.createFibUpdatesForUpdatedRoute {u' : FibUpdater} (hN : P entry.name) {route existingRoute : Route}
    (hu : u.createFibUpdatesForUpdatedRoute s entry route existingRoute = some u') : Valid f P u' := by
  unfold FibUpdater.createFibUpdatesForUpdatedRoute at hu
  split_ifs at hu
  · cases hu
    exact h
  · cases hown : u.updateOwnCost entry route existingRoute with
    | none => simp [hown] at hu
    | some v =>
      have hv := h.updateOwnCost hown
      rw [hown] at hu
      dsimp only at hu
      split_ifs at hu <;> cases hu
      · exact hv.modifyChildrensInheritedRoutes htree hP hc _ _
      · exact (hv.updateChildInherit htree hP hc route existingRoute).updateCapture htree hP hc hN
          route existingRoute

theorem Valid.createFibUpdatesForErasedRoute (hN : entry.routes ≠ [] → P entry.name) (route : Route)
    (captureWasTurnedOff : Bool) : Valid f P (u.createFibUpdatesForErasedRoute s entry route captureWasTurnedOff) := by
  unfold FibUpdater.createFibUpdatesForErasedRoute
  have hremove := h.addFibUpdate (.createRemoveUpdate entry.name route.faceId)
  have hsweep := fun {u} (hu : Valid f P u) =>
    hu.modifyChildrensInheritedRoutes htree hP hc
  extract_lets u₁ anc toRemove u₂
  have hu₂ : Valid f P u₂ := by
    refine iteInduction (fun _ => iteInduction (fun hoff => hsweep ?_ _ _) fun _ => hsweep hremove _ _)
      fun _ => iteInduction (fun _ => hsweep hremove _ _) fun _ => hremove
    exact hremove.addInheritedRoutes (hN (by simpa using (Bool.and_eq_true_iff.mp hoff).2)) _
  refine iteInduction (fun hkeep => ?_) fun _ => hu₂
  cases anc.find? route.faceId with
  | none => exact hu₂
  | some ancestor => exact hu₂.inherit (hN (by simpa using (Bool.and_eq_true_iff.mp hkeep).2)) _

end Entry

end Sweep

/-! ## The updates for a batch -/

theorem Valid.clear (h : Valid f P u) : Valid f P { u with updatesForBatchFaceId := [] } where
  face := h.face
  batch _ hx := by cases hx
  nonBatch := h.nonBatch
  batch_nodup := List.nodup_nil
  nonBatch_nodup := h.nonBatch_nodup
  records := h.records

theorem Valid.computeUpdatesForRegistration {u' : FibUpdater} (h : Valid f P u) (htree : s.Tree)
    {N : Name} {route : Route} (hP : ∀ n, n = N ∨ s.rib.find? n ≠ none → P n)
    (hu : u.computeUpdatesForRegistration s N route = some u') : Valid f P u' := by
  have hbelow : ∀ q, s.Below N q → P (s.entries q).name := by
    rintro q ⟨m, hm, -⟩
    rw [htree.named hm]
    exact hP m (Or.inr (by simp [hm]))
  unfold FibUpdater.computeUpdatesForRegistration at hu
  cases hp : s.rib.find? N with
  | some p =>
    have hc : ∀ q ∈ (s.entries p).children, s.Below N q := fun q hq => htree.below_child hp hq
    have hN : P (s.entries p).name := by
      rw [htree.named hp]
      exact hP N (Or.inl rfl)
    simp only [hp] at hu
    cases hr : (s.entries p).findRoute route with
    | none =>
      simp only [hr, Option.some_inj] at hu
      rw [← hu]
      exact h.createFibUpdatesForNewRoute htree hbelow hc route fun _ => hN
    | some existing =>
      simp only [hr] at hu
      have hc' : ∀ q ∈ ((s.entries p).setRoute route).children, s.Below N q := hc
      exact h.createFibUpdatesForUpdatedRoute htree hbelow hc' hN hu
  | none =>
    simp only [hp, Option.some_inj] at hu
    rw [← hu]
    refine h.createFibUpdatesForNewRibEntry htree hbelow (hP N (Or.inl rfl)) (fun q hq => ?_) route
    obtain ⟨b, hb, rfl⟩ := List.mem_map.mp (List.mem_of_mem_filter hq)
    obtain ⟨hb, hpre⟩ := List.mem_filter.mp hb
    have hfind := s.rib.mem_toList.mp hb
    refine ⟨b.1, hfind, List.isPrefixOf_iff_prefix.mp hpre, ?_⟩
    rintro rfl
    simp [hfind] at hp

theorem eraseRoute_name (e : RibEntry) (route : Route) :
    (e.eraseRoute route).name = e.name ∧ (e.eraseRoute route).children = e.children := by
  unfold RibEntry.eraseRoute
  split <;> exact ⟨rfl, rfl⟩

theorem Valid.computeUpdatesForUnregistration (h : Valid f P u) (htree : s.Tree) (nth : NthElement)
    {N : Name} {route : Route} (hP : ∀ n ≠ N, s.rib.find? n ≠ none → P n)
    (hN : ∀ p, s.rib.find? N = some p → ((s.entries p).eraseRoute route).routes ≠ [] → P N) :
    Valid f P (u.computeUpdatesForUnregistration s nth N route) := by
  have hbelow : ∀ q, s.Below N q → P (s.entries q).name := by
    rintro q ⟨m, hm, -, hne⟩
    rw [htree.named hm]
    exact hP m hne.symm (by simp [hm])
  unfold FibUpdater.computeUpdatesForUnregistration
  cases hp : s.rib.find? N with
  | none => exact h
  | some p =>
    dsimp only
    cases hr : (s.entries p).findRoute route with
    | none => exact h
    | some existing =>
      obtain ⟨hname, hchildren⟩ := eraseRoute_name (s.entries p) route
      have hc : ∀ q ∈ ((s.entries p).eraseRoute route).children, s.Below N q := fun q hq =>
        htree.below_child hp (hchildren ▸ hq)
      have hentry : ((s.entries p).eraseRoute route).routes ≠ [] →
          P ((s.entries p).eraseRoute route).name := fun hne => by
        rw [hname, htree.named hp]
        exact hN p hp hne
      dsimp only
      have hnext := h.createFibUpdatesForErasedRoute htree hbelow hc hentry existing
        ((s.entries p).hasCapture && !((s.entries p).eraseRoute route).hasCapture)
      have hnew : ∀ next, Valid f P (FibUpdater.createFibUpdatesForNewRoute _ s
          ((s.entries p).eraseRoute route) next false) := fun next =>
        hnext.createFibUpdatesForNewRoute htree hbelow hc next (by simp)
      cases (s.entries p).getRouteWithSecondLowestCostByFaceId nth route.faceId with
      | none => exact iteInduction (fun _ => hnext.createFibUpdatesForErasedRibEntry _) fun _ => hnext
      | some next =>
        exact iteInduction (fun _ => (hnew next).createFibUpdatesForErasedRibEntry _)
          fun _ => hnew next

/-- **What the updater computes for a batch is well formed, and it records inherited routes only for
names that the RIB has once the update is applied.** -/
theorem computeUpdates_valid (htree : s.Tree) {nth : NthElement} {update : RibUpdate}
    (hu : computeUpdates s nth update = some u) :
    ∃ t, s.applyUpdate update = some t ∧ t.Tree ∧
      Valid update.route.faceId (fun n => t.rib.find? n ≠ none) u := by
  have hinit := valid_init update.route.faceId
  have hunregister : ∃ t, s.erase update.name update.route = some t ∧ t.Tree ∧
      Valid update.route.faceId (fun n => t.rib.find? n ≠ none)
        (FibUpdater.computeUpdatesForUnregistration { batchFaceId := update.route.faceId } s nth
          update.name update.route) := by
    obtain ⟨t, ht, htree', hcases⟩ := htree.erase update.name update.route
    refine ⟨t, ht, htree', (hinit _).computeUpdatesForUnregistration htree nth ?_ ?_⟩
    · rcases hcases with ⟨rfl, -⟩ | ⟨p, r, hp, hr, ⟨hne, rfl⟩ | ⟨he, hrel⟩⟩
      · exact fun n _ hn => hn
      · intro n _ hn
        rwa [Rib.eraseRouteAt_rib]
      · intro n hnN hn
        rw [hrel.rib]
        change (s.rib.erase update.name).find? n ≠ none
        rwa [OrdMap.find?_erase_of_ne _ (Ne.symm hnN)]
    · intro p hp hne
      rcases hcases with ⟨rfl, -⟩ | ⟨p', r, hp', hr, ⟨-, rfl⟩ | ⟨he, hrel⟩⟩
      · simp [hp]
      · rw [Rib.eraseRouteAt_rib]
        simp [hp]
      · rw [hp, Option.some_inj] at hp'
        rw [← hp', Rib.eraseRouteAt_entries_self] at he
        exact absurd he hne
  unfold FibUpdater.computeUpdates at hu
  unfold Rib.applyUpdate
  cases haction : update.action with
  | register =>
    simp only [haction] at hu
    obtain ⟨t, ht, htree', hcases⟩ := htree.insert update.name update.route
    refine ⟨t, ht, htree', (hinit _).computeUpdatesForRegistration htree (fun n hn => ?_) hu⟩
    rcases hcases with ⟨p, hp, -, rfl⟩ | ⟨p, r, hp, -, rfl⟩ | ⟨hp, hrel⟩
    · rcases hn with rfl | hn
      · exact fun h => by simp [Rib.insertRouteAt, Rib.emplaceFace, Rib.modify, hp] at h
      · exact hn
    · rcases hn with rfl | hn
      · exact fun h => by simp [Rib.modify, hp] at h
      · exact hn
    · rw [hrel.rib]
      change (s.rib.insert update.name s.nEntries).find? n ≠ none
      rw [OrdMap.find?_insert]
      split_ifs with hne
      · simp
      · exact hn.resolve_left (Ne.symm hne)
  | unregister =>
    simp only [haction, Option.some_inj] at hu
    exact hu ▸ hunregister
  | removeFace =>
    simp only [haction, Option.some_inj] at hu
    obtain ⟨t, ht, htree', hv⟩ := hunregister
    exact ⟨t, ht, htree', hu ▸ hv.clear⟩

end FibUpdater

namespace Rib

theorem modifyInheritedRoutes_ok {s : Rib} (h : s.Tree) {updates : List RibUpdate}
    (hu : ∀ x ∈ updates, s.rib.find? x.name ≠ none) :
    ∃ t, s.modifyInheritedRoutes updates = some t ∧ t.Tree ∧ t.rib = s.rib := by
  unfold modifyInheritedRoutes
  induction updates generalizing s with
  | nil => exact ⟨s, rfl, h, rfl⟩
  | cons x updates ih =>
    obtain ⟨t, ht, htree, hrib⟩ : ∃ t, s.modifyInheritedRoute x = some t ∧ t.Tree ∧ t.rib = s.rib := by
      obtain ⟨p, hp⟩ := Option.ne_none_iff_exists'.mp (hu x List.mem_cons_self)
      unfold modifyInheritedRoute
      rw [hp]
      cases x.action with
      | register => exact ⟨_, rfl, h.modify p (fun _ => rfl) (fun _ => rfl) fun _ => rfl, rfl⟩
      | unregister => exact ⟨_, rfl, h.modify p (fun _ => rfl) (fun _ => rfl) fun _ => rfl, rfl⟩
      | removeFace => exact ⟨s, rfl, h, rfl⟩
    obtain ⟨t', ht', htree', hrib'⟩ := ih htree fun y hy => by
      rw [hrib]
      exact hu y (List.mem_cons_of_mem _ hy)
    refine ⟨t', ?_, htree', hrib'.trans hrib⟩
    rw [List.foldlM_cons, ht]
    exact ht'

end Rib

end Ns3Ndn
