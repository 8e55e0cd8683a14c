import Ns3Ndn.Lib.Run
import Ns3Ndn.Rib.Tree

/-!
# The counters of the RIB

Each entry counts its `CAPTURE` routes by hand, and the table counts all routes. `insertRoute` and
`eraseRoute` adjust the first counter, but `insert` overwrites an existing route in place without
touching it: a re-registration that turns `CAPTURE` on or off leaves the counter behind.

* `Counted`: routes of an entry have distinct (face, origin), no entry is empty, and `nItems` is the
  number of routes;
* **`run_repInv_iff`**: the counters are right all along a run exactly when no re-registration of the
  run changes the `CAPTURE` flag of a route.
-/

namespace Ns3Ndn

open OrdLib RunLib

/-! ## One entry -/

namespace RibEntry

variable {e : RibEntry} {route r : Route}

def nCapture (e : RibEntry) : ℕ := e.routes.countP Route.isRibCapture

def Keyed (e : RibEntry) : Prop := e.routes.Pairwise fun a b => ¬ a.sameFaceIdAndOrigin b

theorem keyed_insertRoute (h : e.Keyed) (hr : e.findRoute route = none) :
    (e.insertRoute route).1.Keyed := by
  rw [Keyed, insertRoute_routes hr, List.pairwise_append]
  refine ⟨h, List.pairwise_singleton _ _, fun a ha b hb => ?_⟩
  rw [List.mem_singleton.mp hb]
  exact findRoute_eq_none.mp hr a ha

theorem keyed_setRoute (h : e.Keyed) (hr : e.findRoute route = some r) :
    (e.setRoute route).Keyed := by
  obtain ⟨hsame, l₁, l₂, hl, hset, -⟩ := findRoute_split hr
  obtain ⟨hf, ho⟩ := Route.sameFaceIdAndOrigin_iff.mp hsame
  rw [Keyed, hl] at h
  rw [Keyed, hset]
  rw [List.pairwise_append, List.pairwise_cons] at h ⊢
  simp only [List.mem_cons, forall_eq_or_imp, Route.sameFaceIdAndOrigin_iff, ← hf, ← ho] at h ⊢
  exact h

theorem keyed_eraseRoute (h : e.Keyed) (hr : e.findRoute route = some r) :
    (e.eraseRoute route).Keyed := by
  obtain ⟨-, l₁, l₂, hl, -, herase⟩ := findRoute_split hr
  rw [Keyed, hl] at h
  rw [Keyed, herase]
  exact h.sublist (List.Sublist.append_left (List.sublist_cons_self _ _) _)

variable (h : e.nRoutesWithCaptureSet = e.nCapture)

include h

theorem capture_insertRoute (hr : e.findRoute route = none) :
    (e.insertRoute route).1.nRoutesWithCaptureSet = (e.insertRoute route).1.nCapture := by
  rw [nCapture, insertRoute_routes hr, insertRoute, hr, List.countP_append, List.countP_singleton]
  change ite _ _ _ = _
  rw [h, nCapture]
  split_ifs <;> rfl

theorem capture_eraseRoute (hr : e.findRoute route = some r) :
    (e.eraseRoute route).nRoutesWithCaptureSet = (e.eraseRoute route).nCapture := by
  obtain ⟨-, l₁, l₂, hl, -, herase⟩ := findRoute_split hr
  rw [nCapture, herase, eraseRoute, hr]
  change ite _ _ _ = _
  rw [h, nCapture, hl, List.countP_append, List.countP_cons, List.countP_append]
  split_ifs
  · rw [← Nat.add_assoc, wrapPred_succ]
  · rfl

/-- **An overwritten route leaves the counter right just when it keeps its `CAPTURE` flag.** -/
theorem capture_setRoute_iff (hr : e.findRoute route = some r) :
    (e.setRoute route).nRoutesWithCaptureSet = (e.setRoute route).nCapture ↔
      r.isRibCapture = route.isRibCapture := by
  obtain ⟨-, l₁, l₂, hl, hset, -⟩ := findRoute_split hr
  rw [nCapture, hset]
  change e.nRoutesWithCaptureSet = _ ↔ _
  rw [h, nCapture, hl, List.countP_append, List.countP_cons, List.countP_append, List.countP_cons]
  cases r.isRibCapture <;> cases route.isRibCapture <;> simp

end RibEntry

/-! ## The table -/

namespace Rib

variable {s t : Rib}

def nRoutes (s : Rib) : ℕ := (s.rib.toList.map fun b => (s.entries b.2).routes.length).sum

/-- What every run keeps. -/
structure Counted (s : Rib) : Prop where
  keyed : ∀ {n p}, s.rib.find? n = some p → (s.entries p).Keyed
  nonempty : ∀ {n p}, s.rib.find? n = some p → (s.entries p).routes ≠ []
  items : s.nItems = s.nRoutes

def CaptureCounted (s : Rib) : Prop :=
  ∀ n p, s.rib.find? n = some p → (s.entries p).nRoutesWithCaptureSet = (s.entries p).nCapture

/-- **The representation invariant.** -/
structure RepInv (s : Rib) : Prop extends Counted s where
  capture : s.CaptureCounted
  hasCapture : ∀ {n p}, s.rib.find? n = some p →
    ((s.entries p).hasCapture = true ↔ ∃ r ∈ (s.entries p).routes, r.isRibCapture)

def KeepsCapture (s : Rib) : RibOp → Prop
  | .insert name route => ∀ p r, s.rib.find? name = some p →
      (s.entries p).findRoute route = some r → r.isRibCapture = route.isRibCapture
  | .erase _ _ => True

theorem counted_empty : Counted empty where
  keyed h := by cases h
  nonempty h := by cases h
  items := rfl

theorem repInv_iff : RepInv s ↔ Counted s ∧ s.CaptureCounted := by
  refine ⟨fun h => ⟨h.toCounted, h.capture⟩, fun h => ⟨h.1, h.2, fun {n p} hp => ?_⟩⟩
  rw [RibEntry.hasCapture, decide_eq_true_eq, h.2 n p hp, RibEntry.nCapture, List.countP_pos_iff]

variable {p : EntryPtr} {n : Name}

theorem nRoutes_of_find (hp : s.rib.find? n = some p) :
    s.nRoutes = (s.entries p).routes.length +
      ((s.rib.erase n).toList.map fun b => (s.entries b.2).routes.length).sum := by
  rw [nRoutes, ((s.rib.erase_perm hp).map _).sum_nat, List.map_cons, List.sum_cons]

theorem Tree.sum_others (h : Tree s) (hp : s.rib.find? n = some p)
    (hoth : ∀ q, q ≠ p → (t.entries q).routes = (s.entries q).routes) :
    ((s.rib.erase n).toList.map fun b => (t.entries b.2).routes.length).sum =
      ((s.rib.erase n).toList.map fun b => (s.entries b.2).routes.length).sum := by
  refine congrArg List.sum (List.map_congr_left fun b hb => ?_)
  have hfind := (s.rib.erase n).mem_toList.mp (show (b.1, b.2) ∈ _ from hb)
  rw [hoth]
  intro hbp
  rw [OrdMap.find?_erase] at hfind
  split_ifs at hfind with hn
  exact hn (h.inj hp (hbp ▸ hfind))

theorem Tree.nRoutes_edit (h : Tree s) (hp : s.rib.find? n = some p)
    (hrib : t.rib = s.rib) (hoth : ∀ q, q ≠ p → (t.entries q).routes = (s.entries q).routes) :
    t.nRoutes + (s.entries p).routes.length = s.nRoutes + (t.entries p).routes.length := by
  rw [nRoutes_of_find hp, nRoutes_of_find (s := t) (hrib ▸ hp), hrib, h.sum_others hp hoth]
  omega

/-! ## One step -/

theorem Counted.edit (hc : Counted s) (h : Tree s)
    (hp : s.rib.find? n = some p) (hrib : t.rib = s.rib)
    (hoth : ∀ q, q ≠ p → (t.entries q).routes = (s.entries q).routes)
    (hkeyed : (t.entries p).Keyed) (hne : (t.entries p).routes ≠ [])
    (hitems : t.nItems + (s.entries p).routes.length = s.nItems + (t.entries p).routes.length) :
    Counted t where
  keyed {m q} hq := by
    rw [hrib] at hq
    by_cases hqp : q = p
    · exact hqp ▸ hkeyed
    · rw [RibEntry.Keyed, hoth q hqp]
      exact hc.keyed hq
  nonempty {m q} hq := by
    rw [hrib] at hq
    by_cases hqp : q = p
    · exact hqp ▸ hne
    · rw [hoth q hqp]
      exact hc.nonempty hq
  items := by
    have h1 := h.nRoutes_edit hp hrib hoth
    have h2 := hc.items
    omega

theorem Relinked.counted (hr : Relinked s t) (h : Counted s) : Counted t where
  keyed hq := by
    rw [RibEntry.Keyed, hr.routes]
    exact h.keyed (hr.rib ▸ hq)
  nonempty hq := by
    rw [hr.routes]
    exact h.nonempty (hr.rib ▸ hq)
  items := by
    simp only [hr.nItems, h.items, nRoutes, hr.rib, hr.routes]

theorem Relinked.captureCounted (hr : Relinked s t) (h : s.CaptureCounted) :
    t.CaptureCounted := fun n p hp => by
  rw [hr.capture, RibEntry.nCapture, hr.routes]
  exact h n p (hr.rib ▸ hp)

theorem CaptureCounted.modify_iff (h : s.CaptureCounted)
    (hp : s.rib.find? n = some p) (hrib : t.rib = s.rib)
    (hoth : ∀ q, q ≠ p → t.entries q = s.entries q) :
    t.CaptureCounted ↔ (t.entries p).nRoutesWithCaptureSet = (t.entries p).nCapture := by
  refine ⟨fun ht => ht n p (hrib ▸ hp), fun ht m q hq => ?_⟩
  by_cases hqp : q = p
  · exact hqp ▸ ht
  · rw [hoth q hqp]
    exact h m q (hrib ▸ hq)

theorem Counted.newEntry (hc : Counted s) (h : Tree s) {name : Name}
    (hn : s.rib.find? name = none) (route : Route) : Counted (s.newEntry name route) := by
  have hself : ((s.newEntry name route).entries s.nEntries).routes = [route] := by
    rw [newEntry_entries_self, RibEntry.insertRoute_routes rfl]
    rfl
  refine ⟨fun {m q} hq => ?_, fun {m q} hq => ?_, ?_⟩
  · rcases (h.find?_newEntry hn route).mp hq with ⟨-, rfl⟩ | ⟨-, hne, hq⟩
    · rw [RibEntry.Keyed, hself]
      exact List.pairwise_singleton _ _
    · rw [newEntry_entries_of_ne hne]
      exact hc.keyed hq
  · rcases (h.find?_newEntry hn route).mp hq with ⟨-, rfl⟩ | ⟨-, hne, hq⟩
    · rw [hself]
      exact List.cons_ne_nil _ _
    · rw [newEntry_entries_of_ne hne]
      exact hc.nonempty hq
  · change s.nItems + 1 = ((s.rib.insert name s.nEntries).toList.map _).sum
    rw [((s.rib.insert_perm hn s.nEntries).map _).sum_nat, List.map_cons, List.sum_cons, hself,
      hc.items, nRoutes, Nat.add_comm]
    refine congrArg (1 + ·) (congrArg List.sum (List.map_congr_left fun b hb => ?_))
    rw [newEntry_entries_of_ne]
    exact (h.fresh (s.rib.mem_toList.mp (show (b.1, b.2) ∈ _ from hb))).ne

theorem Counted.eraseName (hc : Counted s) (h : Tree s) {name : Name}
    {route r : Route} (hp : s.rib.find? name = some p)
    (hr : (s.entries p).findRoute route = some r)
    (he : ((s.eraseRouteAt p route).entries p).routes = []) :
    Counted { s.eraseRouteAt p route with rib := s.rib.erase name } := by
  have hfind : ∀ {m q}, (s.rib.erase name).find? m = some q →
      q ≠ p ∧ s.rib.find? m = some q := fun {m q} hq => by
    rw [OrdMap.find?_erase] at hq
    split_ifs at hq with hm
    exact ⟨fun hqp => hm (h.inj hp (hqp ▸ hq)), hq⟩
  have hoth : ∀ q, q ≠ p → (s.eraseRouteAt p route).entries q = s.entries q := fun q hq =>
    eraseRouteAt_entries_of_ne hq route
  have hone : (s.entries p).routes.length = 1 := by
    obtain ⟨-, l₁, l₂, hl, -, herase⟩ := RibEntry.findRoute_split hr
    rw [eraseRouteAt_entries_self, herase, List.append_eq_nil_iff] at he
    rw [hl, he.1, he.2]
    rfl
  refine ⟨fun {m q} hq => ?_, fun {m q} hq => ?_, ?_⟩
  · obtain ⟨hqp, hq⟩ := hfind hq
    exact hoth q hqp ▸ hc.keyed hq
  · obtain ⟨hqp, hq⟩ := hfind hq
    exact hoth q hqp ▸ hc.nonempty hq
  · change (s.eraseRouteAt p route).nItems = ((s.rib.erase name).toList.map _).sum
    rw [h.sum_others (t := s.eraseRouteAt p route) hp fun q hq => by rw [hoth q hq],
      eraseRouteAt_nItems, hc.items, nRoutes_of_find hp, hone, Nat.add_comm, wrapPred_succ]

/-- **A call keeps the counts; it keeps the capture counters just when it keeps `CAPTURE`.** -/
theorem Counted.apply (hc : Counted s) (h : Tree s) {op : RibOp} (ht : s.apply op = some t) :
    Counted t ∧ (s.CaptureCounted → (t.CaptureCounted ↔ s.KeepsCapture op)) := by
  cases op with
  | insert name route =>
    obtain ⟨t', ht', -, hcases⟩ := h.insert name route
    obtain rfl := Option.some.inj (ht'.symm.trans ht)
    rcases hcases with ⟨p, hp, hr, rfl⟩ | ⟨p, r, hp, hr, rfl⟩ | ⟨hn, hrel⟩
    · refine ⟨hc.edit h hp rfl (fun q hq => ?_) ?_ ?_ ?_, fun hcap => ?_⟩
      · rw [insertRouteAt_entries_of_ne hq]
      · rw [insertRouteAt_entries_self]
        exact RibEntry.keyed_insertRoute (hc.keyed hp) hr
      · rw [insertRouteAt_entries_self, RibEntry.insertRoute_routes hr]
        simp
      · rw [insertRouteAt_entries_self, RibEntry.insertRoute_routes hr, List.length_append, List.length_singleton]
        change s.nItems + 1 + _ = _
        omega
      · rw [hcap.modify_iff (t := s.insertRouteAt p route) hp rfl fun q hq =>
          insertRouteAt_entries_of_ne hq route, insertRouteAt_entries_self]
        refine iff_of_true (RibEntry.capture_insertRoute (hcap name p hp) hr) fun p' r' hp' hr' => ?_
        rw [hp] at hp'
        cases hp'
        rw [hr] at hr'
        cases hr'
    · refine ⟨hc.edit h hp rfl (fun q hq => ?_) ?_ ?_ ?_, fun hcap => ?_⟩
      · rw [modify_entries_of_ne hq]
      · rw [modify_entries_self]
        exact RibEntry.keyed_setRoute (hc.keyed hp) hr
      · obtain ⟨-, l₁, l₂, -, hset, -⟩ := RibEntry.findRoute_split hr
        rw [modify_entries_self, hset]
        simp
      · obtain ⟨-, l₁, l₂, hl, hset, -⟩ := RibEntry.findRoute_split hr
        rw [modify_entries_self, hset, hl, List.length_append, List.length_append]
        rfl
      · rw [hcap.modify_iff (t := s.modify p _) hp rfl fun q hq => modify_entries_of_ne hq _,
          modify_entries_self, RibEntry.capture_setRoute_iff (hcap name p hp) hr]
        refine ⟨fun hk p' r' hp' hr' => ?_, fun hk => hk p r hp hr⟩
        rw [hp] at hp'
        cases hp'
        rw [hr] at hr'
        cases hr'
        exact hk
    · have hnew := hc.newEntry h hn route
      refine ⟨hrel.counted ⟨hnew.keyed, hnew.nonempty, hnew.items⟩, fun hcap => ?_⟩
      refine iff_of_true (hrel.captureCounted fun m q hq => ?_) fun p' r' hp' _ => ?_
      · rcases (h.find?_newEntry hn route).mp hq with ⟨-, rfl⟩ | ⟨-, hne, hq⟩
        · change ((s.newEntry name route).entries s.nEntries).nRoutesWithCaptureSet =
            ((s.newEntry name route).entries s.nEntries).nCapture
          rw [newEntry_entries_self]
          exact RibEntry.capture_insertRoute rfl rfl
        · change ((s.newEntry name route).entries q).nRoutesWithCaptureSet =
            ((s.newEntry name route).entries q).nCapture
          rw [newEntry_entries_of_ne hne]
          exact hcap m q hq
      · rw [hn] at hp'
        cases hp'
  | erase name route =>
    obtain ⟨t', ht', -, hcases⟩ := h.erase name route
    obtain rfl := Option.some.inj (ht'.symm.trans ht)
    rcases hcases with ⟨rfl, -⟩ | ⟨p, r, hp, hr, hcases⟩
    · exact ⟨hc, fun hcap => iff_of_true hcap trivial⟩
    have hself := s.eraseRouteAt_entries_self p route
    have hoth : ∀ q, q ≠ p → (s.eraseRouteAt p route).entries q = s.entries q := fun q hq =>
      eraseRouteAt_entries_of_ne hq route
    have hcap' : s.CaptureCounted → (s.eraseRouteAt p route).CaptureCounted := fun hcap => by
      rw [hcap.modify_iff hp (eraseRouteAt_rib p route) hoth, hself]
      exact RibEntry.capture_eraseRoute (hcap name p hp) hr
    rcases hcases with ⟨hne, rfl⟩ | ⟨he, hrel⟩
    · refine ⟨hc.edit h hp (eraseRouteAt_rib p route) (fun q hq => by rw [hoth q hq]) ?_ hne ?_,
        fun hcap => iff_of_true (hcap' hcap) trivial⟩
      · rw [hself]
        exact RibEntry.keyed_eraseRoute (hc.keyed hp) hr
      · obtain ⟨-, l₁, l₂, hl, -, herase⟩ := RibEntry.findRoute_split hr
        rw [hself, herase, eraseRouteAt_nItems, hc.items, nRoutes_of_find hp, hl,
          List.length_append, List.length_append, List.length_cons]
        rw [show l₁.length + (l₂.length + 1) = l₁.length + l₂.length + 1 from rfl,
          Nat.add_right_comm (l₁.length + l₂.length), wrapPred_succ]
        omega
    · refine ⟨hrel.counted (hc.eraseName h hp hr he), fun hcap => iff_of_true ?_ trivial⟩
      refine hrel.captureCounted fun m q hq => hcap' hcap m q ?_
      rw [eraseRouteAt_rib]
      change (s.rib.erase name).find? m = some q at hq
      rw [OrdMap.find?_erase] at hq
      split_ifs at hq
      exact hq

theorem run_tree_counted (ops : List RibOp) : ∃ s, run ops = some s ∧ Tree s ∧ Counted s := by
  induction ops using List.reverseRecOn with
  | nil => exact ⟨empty, rfl, tree_empty, counted_empty⟩
  | append_singleton ops op ih =>
    obtain ⟨s, hs, h, hc⟩ := ih
    obtain ⟨t, ht, h'⟩ := h.apply op
    exact ⟨t, by rw [run_concat, hs, Option.bind_some, ht], h', (hc.apply h ht).1⟩

/-- **The representation invariant holds all along a run exactly when no re-registration of the run
changes the `CAPTURE` flag of the route it overwrites.** -/
theorem run_repInv_iff (ops : List RibOp) :
    (∀ pre, pre <+: ops → ∃ s, run pre = some s ∧ RepInv s) ↔
      ∀ pre op, pre ++ [op] <+: ops → ∀ s, run pre = some s → s.KeepsCapture op := by
  refine forall_prefix_iff_forall_step
    (P := fun pre => ∃ s, run pre = some s ∧ RepInv s)
    (Q := fun pre op => ∀ s, run pre = some s → s.KeepsCapture op)
    ⟨empty, rfl, repInv_iff.mpr ⟨counted_empty, fun n p hp => by cases hp⟩⟩ ?_ ops
  rintro pre op ⟨s, hs, hinv⟩
  obtain ⟨s', hs', h, hc⟩ := run_tree_counted pre
  obtain rfl := Option.some.inj (hs'.symm.trans hs)
  obtain ⟨t, ht, -⟩ := h.apply op
  obtain ⟨hct, hiff⟩ := hc.apply h ht
  have hrun : run (pre ++ [op]) = some t := by rw [run_concat, hs, Option.bind_some, ht]
  simp only [hrun, hs, Option.some.injEq, exists_eq_left', forall_eq', repInv_iff, hct, true_and]
  exact hiff hinv.capture

/-- A route registered twice, the second time with `CAPTURE`: the counter stays at zero. -/
theorem not_repInv_reRegistration : ¬ ∃ s,
    run [.insert [] { faceId := 1, flags := 1 }, .insert [] { faceId := 1, flags := 3 }] = some s ∧
      RepInv s := by
  rintro ⟨s, hs, hinv⟩
  obtain rfl := Option.some.inj hs
  exact absurd (hinv.capture [] 0 rfl) (by decide)

end Rib

end Ns3Ndn
