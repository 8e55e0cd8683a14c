import Ns3Ndn.Lib.Walks
import Ns3Ndn.Table.Tables

/-!
# Global routing

`CalculateRoutes` and `CalculateAllPossibleRoutes` of `ndnSIM/helper/ndn-global-routing-helper.cpp`, with the weights of
`boost-graph-ndn-global-routing-helper.hpp`. Routes are pushed into the FIB of a node by `FibManager::addNextHop`,
destination by destination, and a route replaces the cost of an earlier one with the same face.

The shortest path algorithm is a parameter: for weights and a source it gives the face that a shortest path to a vertex
begins with, and the distance.

* **`routes_iff`**: the routes have the least cost just if the last origins behind faces are the nearest.
-/

namespace Ns3Ndn.GlobalRouting

open WalkLib

/-! ## Topologies -/

/-- An edge out of a vertex. The edges of channels have no face. -/
structure Incidency (V : Type) where
  face : Option FaceId
  target : V

/-- The nodes that have routers, the edges, the face tables, the prefixes of origins, and the order of vertices in a map from
them, which are pointers. A node has edges with faces of net devices in its table. -/
structure Topology (V : Type) where
  nodes : List V
  incidencies : V → List (Incidency V)
  faces : V → List FaceId
  isNetDevice : V → FaceId → Bool
  localPrefixes : V → List Name
  order : List V
  nodup_nodes : nodes.Nodup
  nodup_faces : ∀ v, (faces v).Nodup
  nodup_order : order.Nodup
  incidency_face : ∀ s ∈ nodes, ∀ i ∈ incidencies s, ∃ f ∈ faces s, i.face = some f ∧ isNetDevice s f = true

variable {V : Type} [DecidableEq V]

/-- The metrics of faces, and the FIBs of nodes. A prefix without an entry has no next hops. -/
structure RoutingState (V : Type) where
  metrics : V → FaceId → ℕ
  fib : V → Name → List NextHop

def weights (metrics : V → FaceId → ℕ) (v : V) (f : FaceId) : ℕ := metrics v f % 2 ^ 16

def Topology.graph (T : Topology V) (w : V → FaceId → ℕ) : WGraph V (Option FaceId) := fun u l n v =>
  ∃ i ∈ T.incidencies u, i.face = l ∧ i.target = v ∧ n = l.elim 0 (w u)

def weightInf : ℕ := 65535

def disabled : ℕ := 65534

/-- A shortest path algorithm: for weights, a source and a vertex, the first face and the distance. -/
abbrev Dijkstra (V : Type) := (V → FaceId → ℕ) → V → V → Option FaceId × ℕ

/-! ## The code -/

section Code

variable (T : Topology V) (S : NextHopSort) (dijkstra : Dijkstra V)

def RoutingState.setMetric (st : RoutingState V) (v : V) (f : FaceId) (metric : ℕ) : RoutingState V :=
  { st with metrics := fun u g => if u = v ∧ g = f then metric else st.metrics u g }

/-- `FibHelper::AddRoute`, which sends a command to `FibManager::addNextHop`: prefixes that are too long and unknown faces are
refused. -/
def addRoute (st : RoutingState V) (node : V) (prefixName : Name) (f : FaceId) (cost : ℕ) : RoutingState V :=
  if maxDepth < prefixName.length ∨ f ∉ T.faces node then st
  else { st with
    fib := fun v p =>
      if v = node ∧ p = prefixName then (Tables.addOrUpdateNextHop S (st.fib v p) f cost).1 else st.fib v p }

def addRoutes (dist : V → Option FaceId × ℕ) (isDisabled : FaceId → Bool) (source : V) (st : RoutingState V) (v : V) :
    RoutingState V :=
  if v = source then st
  else match dist v with
    | (none, _) => st
    | (some f, d) =>
      (T.localPrefixes v).foldl (fun st p => if isDisabled f then st else addRoute T S st source p f d) st

def calculateRoutesNode (st : RoutingState V) (source : V) : RoutingState V :=
  T.order.foldl (addRoutes T S (dijkstra (weights st.metrics) source) (fun _ => false) source) st

def calculateRoutes (st : RoutingState V) : RoutingState V := T.nodes.foldl (calculateRoutesNode T S dijkstra) st

def calculateAllPossibleRoutesFace (originalMetrics : FaceId → ℕ) (source : V) (st : RoutingState V) (f : FaceId) :
    RoutingState V :=
  if T.isNetDevice source f then
    let st := st.setMetric source f (originalMetrics f)
    let st := T.order.foldl (addRoutes T S (dijkstra (weights st.metrics) source)
      (fun g => st.metrics source g = disabled) source) st
    st.setMetric source f disabled
  else st

/-- A turn of `CalculateAllPossibleRoutes`. The metrics are remembered as numbers of 16 bits. -/
def calculateAllPossibleRoutesNode (st : RoutingState V) (source : V) : RoutingState V :=
  let originalMetrics := fun f => st.metrics source f % 2 ^ 16
  let st := (T.faces source).foldl (fun st f => st.setMetric source f disabled) st
  let st := (T.faces source).foldl (calculateAllPossibleRoutesFace T S dijkstra originalMetrics source) st
  (T.faces source).foldl (fun st f => st.setMetric source f (originalMetrics f)) st

def calculateAllPossibleRoutes (st : RoutingState V) : RoutingState V :=
  T.nodes.foldl (calculateAllPossibleRoutesNode T S dijkstra) st

end Code

/-- **What the shortest path algorithm computes** from nodes: for a vertex that can be reached, a face that a shortest path
begins with, and the distance. A path does not come back to its source. Distances from `WeightInf` on are not found. -/
structure IsDijkstra (T : Topology V) (dijkstra : Dijkstra V) : Prop where
  reached : ∀ w, ∀ s ∈ T.nodes, ∀ v ≠ s, ∀ f d, dijkstra w s v = (some f, d) →
    d < weightInf ∧ Through (T.graph w) s (some f) v d ∧ ∀ l d', Through (T.graph w) s l v d' → d ≤ d'
  unreached : ∀ w, ∀ s ∈ T.nodes, ∀ v ≠ s, (dijkstra w s v).1 = none →
    ∀ l d, Through (T.graph w) s l v d → weightInf ≤ d

/-! ## Costs of next hops -/

section Costs

def nextHopCost (nextHops : List NextHop) (f : FaceId) : Option ℕ := (nextHops.find? (·.face == f)).map NextHop.cost

variable {S : NextHopSort} {nextHops : List NextHop} {f g : FaceId} {c : ℕ}

theorem nextHopCost_eq_some_iff (h : (nextHops.map NextHop.face).Nodup) : nextHopCost nextHops f = some c ↔ ⟨f, c⟩ ∈ nextHops := by
  unfold nextHopCost
  rw [Option.map_eq_some_iff]
  constructor
  · rintro ⟨nh, hnh, rfl⟩
    have hface := List.find?_some hnh
    rw [beq_iff_eq] at hface
    rw [← hface]
    exact List.mem_of_find?_eq_some hnh
  · intro hmem
    cases hfind : nextHops.find? (·.face == f) with
    | none => exact absurd (List.find?_eq_none.mp hfind _ hmem) (by simp)
    | some nh =>
      have hface := List.find?_some hfind
      rw [beq_iff_eq] at hface
      have heq : nh = ⟨f, c⟩ := List.inj_on_of_nodup_map h (List.mem_of_find?_eq_some hfind) hmem hface
      exact ⟨nh, rfl, by rw [heq]⟩

theorem nextHopCost_sort (h : (nextHops.map NextHop.face).Nodup) : nextHopCost (S.sort nextHops) f = nextHopCost nextHops f := by
  have hperm := S.perm nextHops
  ext c
  rw [nextHopCost_eq_some_iff h, nextHopCost_eq_some_iff ((hperm.map _).nodup_iff.mpr h), hperm.mem_iff]

theorem nextHopCost_replaceF (f g : FaceId) (c : ℕ) (l : List NextHop) :
    nextHopCost (l.replaceF fun nh => if nh.face == f then some ⟨f, c⟩ else none) g =
      if g = f ∧ l.any (·.face == f) then some c else nextHopCost l g := by
  unfold nextHopCost
  induction l with
  | nil => simp
  | cons nh l ih =>
    rw [List.replaceF_cons, List.any_cons, List.find?_cons]
    by_cases hface : nh.face = f
    · rw [if_pos (beq_iff_eq.mpr hface)]
      dsimp only
      rw [List.find?_cons]
      by_cases hg : g = f
      · simp [hg, hface]
      · have hne : (f == g) = false := beq_false_of_ne (Ne.symm hg)
        simp [hg, hface, hne]
    · rw [if_neg (by simpa using hface)]
      dsimp only
      rw [List.find?_cons]
      by_cases hg : nh.face = g
      · have hne : g ≠ f := hg ▸ hface
        simp [hg, hne]
      · have hne : (nh.face == g) = false := beq_false_of_ne hg
        rw [hne]
        dsimp only
        rw [ih, beq_false_of_ne hface, Bool.false_or]

/-- **The cost of a face is that of its last route.** -/
theorem nextHopCost_addOrUpdateNextHop (h : Tables.Ordered nextHops) (f : FaceId) (c : ℕ) (g : FaceId) :
    nextHopCost (Tables.addOrUpdateNextHop S nextHops f c).1 g = if g = f then some c else nextHopCost nextHops g := by
  have hfaces := (Tables.ordered_addOrUpdateNextHop S f c h).1
  unfold Tables.addOrUpdateNextHop at hfaces ⊢
  by_cases hany : nextHops.any (·.face == f) = true
  · rw [if_pos hany] at hfaces ⊢
    rw [nextHopCost_sort (((S.perm _).map _).nodup_iff.mp hfaces), nextHopCost_replaceF]
    simp [hany]
  · rw [if_neg hany] at hfaces ⊢
    rw [nextHopCost_sort (((S.perm _).map _).nodup_iff.mp hfaces)]
    unfold nextHopCost
    rw [List.find?_append]
    by_cases hg : g = f
    · have hnone : nextHops.find? (·.face == f) = none := by
        refine List.find?_eq_none.mpr fun nh hnh hface => hany ?_
        exact List.any_eq_true.mpr ⟨nh, hnh, hface⟩
      rw [hg, hnone, if_pos rfl]
      simp
    · have hne : (f == g) = false := beq_false_of_ne (Ne.symm hg)
      simp [hg, hne]

end Costs

/-! ## Routes that are pushed -/

section Push

variable {T : Topology V} {S : NextHopSort} {dist : V → Option FaceId × ℕ} {isDisabled : FaceId → Bool} {s u : V}
  {st : RoutingState V} {p q : Name} {f g : FaceId} {c : ℕ}

def RoutingState.cost (st : RoutingState V) (v : V) (p : Name) (f : FaceId) : Option ℕ := nextHopCost (st.fib v p) f

def RoutingState.Ordered (st : RoutingState V) : Prop := ∀ v p, Tables.Ordered (st.fib v p)

theorem RoutingState.Ordered.addRoute (h : st.Ordered) : (addRoute T S st s p f c).Ordered := by
  unfold GlobalRouting.addRoute
  split_ifs
  · exact h
  · intro v q
    dsimp only
    split_ifs
    · exact Tables.ordered_addOrUpdateNextHop S f c (h v q)
    · exact h v q

@[simp] theorem addRoute_metrics : (addRoute T S st s p f c).metrics = st.metrics := by
  unfold addRoute
  split_ifs <;> rfl

theorem addRoutes_metrics (v : V) : (addRoutes T S dist isDisabled s st v).metrics = st.metrics := by
  unfold addRoutes
  split_ifs
  · rfl
  rcases dist v with ⟨_ | f, d⟩
  · rfl
  dsimp only
  induction T.localPrefixes v generalizing st with
  | nil => rfl
  | cons p ps ih =>
    rw [List.foldl_cons, ih]
    split_ifs <;> simp

theorem foldl_addRoutes_metrics (vs : List V) : (vs.foldl (addRoutes T S dist isDisabled s) st).metrics = st.metrics := by
  induction vs generalizing st with
  | nil => rfl
  | cons v vs ih => rw [List.foldl_cons, ih, addRoutes_metrics]

theorem addRoute_cost (h : st.Ordered) : (addRoute T S st s p f c).cost u q g =
    if u = s ∧ q = p ∧ g = f ∧ p.length ≤ maxDepth ∧ f ∈ T.faces s then some c else st.cost u q g := by
  unfold addRoute RoutingState.cost
  by_cases hrefused : maxDepth < p.length ∨ f ∉ T.faces s
  · rw [if_pos hrefused, if_neg]
    rintro ⟨-, -, -, hlen, hface⟩
    exact hrefused.elim (Nat.not_lt.mpr hlen) (not_not.mpr hface)
  · rw [if_neg hrefused]
    push Not at hrefused
    by_cases huq : u = s ∧ q = p
    · dsimp only
      rw [if_pos huq, nextHopCost_addOrUpdateNextHop (h u q)]
      by_cases hg : g = f
      · rw [if_pos hg, if_pos ⟨huq.1, huq.2, hg, hrefused.1, hrefused.2⟩]
      · rw [if_neg hg, if_neg fun h => hg h.2.2.1]
    · dsimp only
      rw [if_neg huq, if_neg fun h => huq ⟨h.1, h.2.1⟩]

/-- A vertex pushes a route of the source to a prefix with a face. -/
def Pushes (T : Topology V) (dist : V → Option FaceId × ℕ) (isDisabled : FaceId → Bool) (s : V) (p : Name) (f : FaceId)
    (v : V) : Prop :=
  v ≠ s ∧ p ∈ T.localPrefixes v ∧ (dist v).1 = some f ∧ isDisabled f = false ∧ p.length ≤ maxDepth ∧ f ∈ T.faces s

instance (T : Topology V) (dist : V → Option FaceId × ℕ) (isDisabled : FaceId → Bool) (s : V) (p : Name) (f : FaceId) (v : V) :
    Decidable (Pushes T dist isDisabled s p f v) := inferInstanceAs (Decidable (_ ∧ _))

theorem foldl_addRoute_spec (T : Topology V) (S : NextHopSort) (s : V) (f : FaceId) (c : ℕ) (h : st.Ordered) (ps : List Name) :
    (ps.foldl (fun st p => addRoute T S st s p f c) st).Ordered ∧
      ∀ u q g, (ps.foldl (fun st p => addRoute T S st s p f c) st).cost u q g =
        if u = s ∧ q ∈ ps ∧ g = f ∧ q.length ≤ maxDepth ∧ f ∈ T.faces s then some c else st.cost u q g := by
  induction ps using List.reverseRecOn with
  | nil => exact ⟨h, fun u q g => (if_neg fun hmem => List.not_mem_nil hmem.2.1).symm⟩
  | append_singleton ps p ih =>
    obtain ⟨hordered, hcost⟩ := ih
    rw [List.foldl_append, List.foldl_cons, List.foldl_nil]
    refine ⟨hordered.addRoute, fun u q g => ?_⟩
    rw [addRoute_cost hordered, hcost]
    by_cases hq : q = p
    · subst hq
      by_cases hrest : u = s ∧ g = f ∧ q.length ≤ maxDepth ∧ f ∈ T.faces s
      · obtain ⟨hu, hg, hlen, hface⟩ := hrest
        rw [if_pos ⟨hu, rfl, hg, hlen, hface⟩,
          if_pos ⟨hu, List.mem_append_right _ (List.mem_singleton_self _), hg, hlen, hface⟩]
      · rw [if_neg fun h => hrest ⟨h.1, h.2.2.1, h.2.2.2.1, h.2.2.2.2⟩,
          if_neg fun h => hrest ⟨h.1, h.2.2.1, h.2.2.2.1, h.2.2.2.2⟩,
          if_neg fun h => hrest ⟨h.1, h.2.2.1, h.2.2.2.1, h.2.2.2.2⟩]
    · rw [if_neg fun h => hq h.2.1]
      simp [hq]

theorem addRoutes_spec (T : Topology V) (S : NextHopSort) (dist : V → Option FaceId × ℕ) (isDisabled : FaceId → Bool) (s : V)
    (h : st.Ordered) (v : V) :
    (addRoutes T S dist isDisabled s st v).Ordered ∧
      ∀ u q g, (addRoutes T S dist isDisabled s st v).cost u q g =
        if u = s ∧ Pushes T dist isDisabled s q g v then some (dist v).2 else st.cost u q g := by
  unfold addRoutes
  by_cases hv : v = s
  · rw [if_pos hv]
    exact ⟨h, fun u q g => (if_neg fun hpush => hpush.2.1 hv).symm⟩
  · rw [if_neg hv]
    rcases hdist : dist v with ⟨_ | f, d⟩
    · refine ⟨h, fun u q g => (if_neg ?_).symm⟩
      rintro ⟨-, -, -, hface, -⟩
      rw [hdist] at hface
      cases hface
    · dsimp only
      by_cases hdisabled : isDisabled f = true
      · have hfold : (T.localPrefixes v).foldl (fun st p => if isDisabled f then st else addRoute T S st s p f d) st = st := by
          simp only [hdisabled, if_true]
          exact List.foldl_fixed _
        rw [hfold]
        refine ⟨h, fun u q g => (if_neg ?_).symm⟩
        rintro ⟨-, -, -, hface, hg, -⟩
        rw [hdist] at hface
        rw [← Option.some.inj hface, hdisabled] at hg
        cases hg
      · simp only [if_neg hdisabled]
        obtain ⟨hordered, hcost⟩ := foldl_addRoute_spec T S s f d h (T.localPrefixes v)
        refine ⟨hordered, fun u q g => ?_⟩
        rw [hcost]
        refine if_congr (and_congr_right fun _ => ?_) rfl rfl
        unfold Pushes
        rw [hdist]
        constructor
        · rintro ⟨hmem, rfl, hlen, hface⟩
          exact ⟨hv, hmem, rfl, by simpa using hdisabled, hlen, hface⟩
        · rintro ⟨-, hmem, hg, -, hlen, hface⟩
          obtain rfl := Option.some.inj hg
          exact ⟨hmem, rfl, hlen, hface⟩

/-- **The last vertex that pushes a route** gives it its cost. -/
theorem foldl_addRoutes_spec (T : Topology V) (S : NextHopSort) (dist : V → Option FaceId × ℕ) (isDisabled : FaceId → Bool)
    (s : V) (h : st.Ordered) (vs : List V) :
    (vs.foldl (addRoutes T S dist isDisabled s) st).Ordered ∧
      ∀ u q g, (vs.foldl (addRoutes T S dist isDisabled s) st).cost u q g =
        if u = s then ((vs.filter (Pushes T dist isDisabled s q g)).getLast?.map fun v => (dist v).2).or (st.cost u q g)
        else st.cost u q g := by
  induction vs using List.reverseRecOn with
  | nil =>
    refine ⟨h, fun u q g => ?_⟩
    split_ifs <;> rfl
  | append_singleton vs v ih =>
    obtain ⟨hordered, hcost⟩ := ih
    rw [List.foldl_append, List.foldl_cons, List.foldl_nil]
    obtain ⟨hordered', hcost'⟩ := addRoutes_spec T S dist isDisabled s hordered v
    refine ⟨hordered', fun u q g => ?_⟩
    rw [hcost', hcost, List.filter_append, List.filter_singleton]
    by_cases hu : u = s
    · by_cases hpush : Pushes T dist isDisabled s q g v
      · simp [hu, hpush]
      · simp [hu, hpush]
    · simp [hu]

end Push

section Nodes

variable {T : Topology V} {S : NextHopSort} {dijkstra : Dijkstra V} {s : V} {st : RoutingState V} {p : Name} {f : FaceId}
  {m : V → FaceId → ℕ}

omit [DecidableEq V] in
/-- **A node has the routes of its own turn**, when a turn changes the routes of its node alone. -/
theorem exists_turn (turn : RoutingState V → V → RoutingState V) (I : RoutingState V → Prop)
    (hI : ∀ st v, I st → I (turn st v))
    (hframe : ∀ st v u, I st → u ≠ v → ∀ p f, (turn st v).cost u p f = st.cost u p f) {nodes : List V} (hnodup : nodes.Nodup)
    (hs : s ∈ nodes) (h : I st) :
    ∃ st', I st' ∧ (∀ p f, st'.cost s p f = st.cost s p f) ∧
      ∀ p f, (nodes.foldl turn st).cost s p f = (turn st' s).cost s p f := by
  have hrest : ∀ (nodes : List V) (st : RoutingState V), I st → s ∉ nodes →
      I (nodes.foldl turn st) ∧ ∀ p f, (nodes.foldl turn st).cost s p f = st.cost s p f := by
    intro nodes
    induction nodes with
    | nil => exact fun st h _ => ⟨h, fun _ _ => rfl⟩
    | cons v nodes ih =>
      intro st h hs
      obtain ⟨hv, hs⟩ := List.ne_and_not_mem_of_not_mem_cons hs
      obtain ⟨hfinal, hcost⟩ := ih (turn st v) (hI st v h) hs
      exact ⟨hfinal, fun p f => (hcost p f).trans (hframe st v s h hv p f)⟩
  obtain ⟨before, after, rfl⟩ := List.append_of_mem hs
  obtain ⟨-, hafter, hdisjoint⟩ := List.nodup_append.mp hnodup
  obtain ⟨hbefore, hcost⟩ := hrest before st h fun hmem => hdisjoint s hmem s List.mem_cons_self rfl
  refine ⟨before.foldl turn st, hbefore, hcost, fun p f => ?_⟩
  rw [List.foldl_append, List.foldl_cons]
  exact (hrest after _ (hI _ s hbefore) (List.nodup_cons.mp hafter).1).2 p f

/-- The vertices that push a route in `CalculateRoutes`. -/
def pushers (T : Topology V) (dist : V → Option FaceId × ℕ) (isDisabled : FaceId → Bool) (s : V) (p : Name) (f : FaceId) :
    List V := T.order.filter fun v => Pushes T dist isDisabled s p f v

/-- **The routes of** `CalculateRoutes`. -/
theorem calculateRoutes_costs (hordered : st.Ordered) (hs : s ∈ T.nodes) (hempty : ∀ p, st.fib s p = []) (p : Name) (f : FaceId) :
    (calculateRoutes T S dijkstra st).cost s p f =
      (pushers T (dijkstra (weights st.metrics) s) (fun _ => false) s p f).getLast?.map
        fun v => (dijkstra (weights st.metrics) s v).2 := by
  have hspec := fun (st' : RoutingState V) (h : st'.Ordered) v => foldl_addRoutes_spec T S
    (dijkstra (weights st'.metrics) v) (fun _ => false) v h T.order
  obtain ⟨st', ⟨hordered', hmetrics⟩, hcost, hturn⟩ := exists_turn (calculateRoutesNode T S dijkstra)
    (fun st' => st'.Ordered ∧ st'.metrics = st.metrics)
    (fun st' v h => ⟨(hspec st' h.1 v).1, (foldl_addRoutes_metrics T.order).trans h.2⟩)
    (fun st' v u h hu p f => ((hspec st' h.1 v).2 u p f).trans (if_neg hu)) T.nodup_nodes hs ⟨hordered, rfl⟩
  have hnone : st.cost s p f = none := by
    unfold RoutingState.cost
    rw [hempty]
    rfl
  have hlast := (hspec st' hordered' s).2 s p f
  rw [if_pos rfl, hcost, hnone, Option.or_none] at hlast
  rw [calculateRoutes, hturn, calculateRoutesNode, hlast, hmetrics, pushers]

/-! ## One face at a time -/

theorem setMetric_cost (v u : V) (g : FaceId) (metric : ℕ) : (st.setMetric v g metric).cost u p f = st.cost u p f := rfl

theorem foldl_setMetric (v : V) (metric : FaceId → ℕ) (fs : List FaceId) :
    fs.foldl (fun st f => st.setMetric v f (metric f)) st =
      { st with metrics := fun u g => if u = v ∧ g ∈ fs then metric g else st.metrics u g } := by
  induction fs generalizing st with
  | nil => simp
  | cons f fs ih =>
    rw [List.foldl_cons, ih]
    unfold RoutingState.setMetric
    congr 1
    funext u g
    by_cases hu : u = v
    · by_cases hg : g = f
      · simp [hu, hg]
      · simp [hu, hg]
    · simp [hu]

def disabledMetrics (T : Topology V) (m : V → FaceId → ℕ) (s : V) : V → FaceId → ℕ := fun u g =>
  if u = s ∧ g ∈ T.faces s then disabled else m u g

def weightsOf (T : Topology V) (w : V → FaceId → ℕ) (s : V) (f : FaceId) : V → FaceId → ℕ := fun u g =>
  if u = s ∧ g ∈ T.faces s ∧ g ≠ f then disabled else w u g

theorem weights_enabled (hf : f ∈ T.faces s) :
    weights (fun u g => if u = s ∧ g = f then m s f % 2 ^ 16 else disabledMetrics T m s u g) = weightsOf T (weights m) s f := by
  funext u g
  unfold weights weightsOf disabledMetrics disabled
  by_cases hu : u = s
  · subst hu
    by_cases hg : g = f
    · simp [hg]
    · by_cases hmem : g ∈ T.faces u
      · simp [hg, hmem]
      · simp [hg, hmem]
  · simp [hu]

/-- The vertices that push a route with a face in its turn of `CalculateAllPossibleRoutes`. -/
def facePushers (T : Topology V) (dijkstra : Dijkstra V) (w : V → FaceId → ℕ) (s : V) (p : Name) (f : FaceId) : List V :=
  pushers T (dijkstra (weightsOf T w s f) s) (fun g => w s g = disabled) s p f

/-- **The turn of a face** disables it again. -/
theorem calculateAllPossibleRoutesFace_metrics (originalMetrics : FaceId → ℕ) (hf : f ∈ T.faces s)
    (hmetrics : st.metrics = disabledMetrics T m s) :
    (calculateAllPossibleRoutesFace T S dijkstra originalMetrics s st f).metrics = disabledMetrics T m s := by
  unfold calculateAllPossibleRoutesFace
  split_ifs
  · funext u g
    unfold RoutingState.setMetric
    dsimp only
    rw [foldl_addRoutes_metrics, hmetrics]
    unfold disabledMetrics
    by_cases hug : u = s ∧ g = f
    · simp [hug, hf]
    · simp [hug]
  · exact hmetrics

theorem foldl_calculateAllPossibleRoutesFace_metrics (originalMetrics : FaceId → ℕ) {fs : List FaceId}
    (hfs : ∀ f ∈ fs, f ∈ T.faces s) (hmetrics : st.metrics = disabledMetrics T m s) :
    (fs.foldl (calculateAllPossibleRoutesFace T S dijkstra originalMetrics s) st).metrics = disabledMetrics T m s := by
  induction fs generalizing st with
  | nil => exact hmetrics
  | cons f fs ih =>
    exact ih (fun g hg => hfs g (List.mem_cons_of_mem _ hg))
      (calculateAllPossibleRoutesFace_metrics originalMetrics (hfs f List.mem_cons_self) hmetrics)

/-- **The turn of a face** pushes routes with that face alone. -/
theorem calculateAllPossibleRoutesFace_spec (S : NextHopSort) (dijkstra : Dijkstra V) (h : st.Ordered) (hf : f ∈ T.faces s)
    (hmetrics : st.metrics = disabledMetrics T m s) :
    (calculateAllPossibleRoutesFace T S dijkstra (fun g => m s g % 2 ^ 16) s st f).Ordered ∧
      ∀ u p g, (calculateAllPossibleRoutesFace T S dijkstra (fun g => m s g % 2 ^ 16) s st f).cost u p g =
        if u = s ∧ g = f ∧ T.isNetDevice s f = true then
          ((facePushers T dijkstra (weights m) s p f).getLast?.map
            fun v => (dijkstra (weightsOf T (weights m) s f) s v).2).or (st.cost u p g)
        else st.cost u p g := by
  unfold calculateAllPossibleRoutesFace
  by_cases hdevice : T.isNetDevice s f = true
  · rw [if_pos hdevice]
    dsimp only
    have henabled : (st.setMetric s f (m s f % 2 ^ 16)).metrics =
        fun u g => if u = s ∧ g = f then m s f % 2 ^ 16 else disabledMetrics T m s u g := by
      unfold RoutingState.setMetric
      rw [hmetrics]
    have hweights : weights (st.setMetric s f (m s f % 2 ^ 16)).metrics = weightsOf T (weights m) s f := by
      rw [henabled, weights_enabled hf]
    rw [hweights]
    have hisDisabled : ∀ g ∈ T.faces s, (decide ((st.setMetric s f (m s f % 2 ^ 16)).metrics s g = disabled) = false ↔
        g = f ∧ decide (weights m s g = disabled) = false) := by
      intro g hg
      rw [henabled]
      by_cases hgf : g = f
      · simp [hgf, weights]
      · simp [hgf, disabledMetrics, hg]
    obtain ⟨hordered, hcost⟩ := foldl_addRoutes_spec T S (dijkstra (weightsOf T (weights m) s f) s)
      (fun g => decide ((st.setMetric s f (m s f % 2 ^ 16)).metrics s g = disabled)) s
      (show (st.setMetric s f (m s f % 2 ^ 16)).Ordered from h) T.order
    refine ⟨hordered, fun u p g => ?_⟩
    rw [setMetric_cost, hcost]
    by_cases hu : u = s
    · rw [if_pos hu]
      have hpushes : ∀ v, Pushes T (dijkstra (weightsOf T (weights m) s f) s)
          (fun g => decide ((st.setMetric s f (m s f % 2 ^ 16)).metrics s g = disabled)) s p g v ↔
          g = f ∧ Pushes T (dijkstra (weightsOf T (weights m) s f) s) (fun g => decide (weights m s g = disabled)) s p g v := by
        intro v
        unfold Pushes
        constructor
        · rintro ⟨hv, hp, hface, hdis, hlen, hg⟩
          obtain ⟨hgf, hdis⟩ := (hisDisabled g hg).mp hdis
          exact ⟨hgf, hv, hp, hface, hdis, hlen, hg⟩
        · rintro ⟨hgf, hv, hp, hface, hdis, hlen, hg⟩
          exact ⟨hv, hp, hface, (hisDisabled g hg).mpr ⟨hgf, hdis⟩, hlen, hg⟩
      simp only [hpushes]
      by_cases hg : g = f
      · rw [if_pos ⟨hu, hg, hdevice⟩, hg]
        unfold facePushers pushers
        simp only [true_and]
        rfl
      · rw [if_neg fun h => hg h.2.1]
        have hnil : (T.order.filter fun v => decide (g = f ∧
            Pushes T (dijkstra (weightsOf T (weights m) s f) s) (fun g => decide (weights m s g = disabled)) s p g v)) = [] :=
          List.filter_eq_nil_iff.mpr fun v _ h => hg (of_decide_eq_true h).1
        rw [hnil]
        rfl
    · rw [if_neg hu, if_neg fun h => hu h.1]
      rfl
  · rw [if_neg hdevice]
    exact ⟨h, fun u p g => (if_neg fun h => hdevice h.2.2).symm⟩

def faceCost (T : Topology V) (dijkstra : Dijkstra V) (w : V → FaceId → ℕ) (s : V) (p : Name) (f : FaceId) : Option ℕ :=
  (facePushers T dijkstra w s p f).getLast?.map fun v => (dijkstra (weightsOf T w s f) s v).2

theorem foldl_calculateAllPossibleRoutesFace_spec (S : NextHopSort) (dijkstra : Dijkstra V) {fs : List FaceId} (h : st.Ordered)
    (hmetrics : st.metrics = disabledMetrics T m s) (hnodup : fs.Nodup) (hfs : ∀ f ∈ fs, f ∈ T.faces s) :
    (fs.foldl (calculateAllPossibleRoutesFace T S dijkstra (fun g => m s g % 2 ^ 16) s) st).Ordered ∧
      ∀ u p g, (fs.foldl (calculateAllPossibleRoutesFace T S dijkstra (fun g => m s g % 2 ^ 16) s) st).cost u p g =
        if u = s ∧ g ∈ fs ∧ T.isNetDevice s g = true then (faceCost T dijkstra (weights m) s p g).or (st.cost u p g)
        else st.cost u p g := by
  induction fs generalizing st with
  | nil => exact ⟨h, fun u p g => (if_neg fun hmem => List.not_mem_nil hmem.2.1).symm⟩
  | cons f fs ih =>
    obtain ⟨hf, hnodup⟩ := List.nodup_cons.mp hnodup
    have hface := hfs f List.mem_cons_self
    obtain ⟨hordered, hcost⟩ := calculateAllPossibleRoutesFace_spec S dijkstra h hface hmetrics
    obtain ⟨hordered', hcost'⟩ := ih hordered (calculateAllPossibleRoutesFace_metrics _ hface hmetrics) hnodup
      fun g hg => hfs g (List.mem_cons_of_mem _ hg)
    refine ⟨hordered', fun u p g => ?_⟩
    rw [List.foldl_cons, hcost', hcost]
    by_cases hg : g = f
    · subst hg
      rw [if_neg fun hmem => hf hmem.2.1]
      simp [faceCost]
    · simp [hg]

/-- The metrics after the turns of some nodes, which are remembered as numbers of 16 bits. -/
def restoredMetrics (T : Topology V) (m : V → FaceId → ℕ) (nodes : List V) : V → FaceId → ℕ := fun u g =>
  if u ∈ nodes ∧ g ∈ T.faces u then m u g % 2 ^ 16 else m u g

theorem weights_restoredMetrics (nodes : List V) : weights (restoredMetrics T m nodes) = weights m := by
  funext u g
  unfold weights restoredMetrics
  split_ifs
  · exact Nat.mod_mod _ _
  · rfl

theorem restoredMetrics_append (before after : List V) :
    restoredMetrics T (restoredMetrics T m before) after = restoredMetrics T m (before ++ after) := by
  funext u g
  unfold restoredMetrics
  by_cases hg : g ∈ T.faces u
  · by_cases hb : u ∈ before
    · simp [hg, hb]
    · simp [hg, hb]
  · simp [hg]

/-- **The metrics after the turn of a node** in `CalculateAllPossibleRoutes`. -/
theorem calculateAllPossibleRoutesNode_metrics (st : RoutingState V) (s : V) :
    (calculateAllPossibleRoutesNode T S dijkstra st s).metrics = restoredMetrics T st.metrics [s] := by
  unfold calculateAllPossibleRoutesNode
  dsimp only
  rw [foldl_setMetric, foldl_setMetric]
  funext u g
  dsimp only
  rw [foldl_calculateAllPossibleRoutesFace_metrics (m := st.metrics) _ (fun f hf => hf) rfl]
  unfold restoredMetrics disabledMetrics
  by_cases hu : u = s
  · by_cases hg : g ∈ T.faces s
    · simp [hu, hg]
    · simp [hu, hg]
  · simp [hu]

/-- **The metrics after** `CalculateAllPossibleRoutes`. -/
theorem calculateAllPossibleRoutes_metrics (T : Topology V) (S : NextHopSort) (dijkstra : Dijkstra V) (st : RoutingState V) :
    (calculateAllPossibleRoutes T S dijkstra st).metrics = restoredMetrics T st.metrics T.nodes := by
  unfold calculateAllPossibleRoutes
  induction T.nodes using List.reverseRecOn with
  | nil =>
    funext u g
    exact (if_neg fun hmem => List.not_mem_nil hmem.1).symm
  | append_singleton nodes v ih =>
    rw [List.foldl_append, List.foldl_cons, List.foldl_nil, calculateAllPossibleRoutesNode_metrics, ih, restoredMetrics_append]

/-- **The turn of a node** in `CalculateAllPossibleRoutes`. -/
theorem calculateAllPossibleRoutesNode_spec (S : NextHopSort) (dijkstra : Dijkstra V) (h : st.Ordered) (s : V) :
    (calculateAllPossibleRoutesNode T S dijkstra st s).Ordered ∧
      ∀ u p g, (calculateAllPossibleRoutesNode T S dijkstra st s).cost u p g =
        if u = s ∧ g ∈ T.faces s ∧ T.isNetDevice s g = true then
          (faceCost T dijkstra (weights st.metrics) s p g).or (st.cost u p g)
        else st.cost u p g := by
  unfold calculateAllPossibleRoutesNode
  dsimp only
  rw [foldl_setMetric, foldl_setMetric]
  have hordered : ({ st with metrics := disabledMetrics T st.metrics s } : RoutingState V).Ordered := h
  exact foldl_calculateAllPossibleRoutesFace_spec S dijkstra hordered rfl (T.nodup_faces s) fun f hf => hf

/-- **The routes of** `CalculateAllPossibleRoutes`. -/
theorem calculateAllPossibleRoutes_costs (hordered : st.Ordered) (hs : s ∈ T.nodes) (hempty : ∀ p, st.fib s p = []) (p : Name)
    (f : FaceId) :
    (calculateAllPossibleRoutes T S dijkstra st).cost s p f =
      if f ∈ T.faces s ∧ T.isNetDevice s f = true then faceCost T dijkstra (weights st.metrics) s p f else none := by
  have hspec := fun (st' : RoutingState V) (h : st'.Ordered) v => calculateAllPossibleRoutesNode_spec (T := T) S dijkstra h v
  obtain ⟨st', ⟨hordered', hweights⟩, hcost, hturn⟩ := exists_turn (calculateAllPossibleRoutesNode T S dijkstra)
    (fun st' => st'.Ordered ∧ weights st'.metrics = weights st.metrics)
    (fun st' v h => ⟨(hspec st' h.1 v).1, by rw [calculateAllPossibleRoutesNode_metrics, weights_restoredMetrics, h.2]⟩)
    (fun st' v u h hu p f => ((hspec st' h.1 v).2 u p f).trans (if_neg fun hmem => hu hmem.1)) T.nodup_nodes hs ⟨hordered, rfl⟩
  have hnone : st.cost s p f = none := by
    unfold RoutingState.cost
    rw [hempty]
    rfl
  rw [calculateAllPossibleRoutes, hturn, (hspec st' hordered' s).2, hcost, hnone, Option.or_none, hweights]
  exact if_congr (and_iff_right rfl) rfl rfl

end Nodes

/-! ## Least costs -/

section Least

variable {T : Topology V} {S : NextHopSort} {dijkstra : Dijkstra V} {w : V → FaceId → ℕ} {s v : V} {st : RoutingState V}
  {p : Name} {f : FaceId} {c d : ℕ}

/-- The distance of a vertex from a node: the least weight of the walks that do not come back to the node. -/
def Distance (T : Topology V) (w : V → FaceId → ℕ) (s v : V) (d : ℕ) : Prop :=
  IsLeast {d | ∃ l, Through (T.graph w) s l v d} d

def Origin (T : Topology V) (s : V) (p : Name) (v : V) : Prop := v ∈ T.order ∧ v ≠ s ∧ p ∈ T.localPrefixes v

/-- The origins of a prefix whose shortest paths begin with a face, in the order of the map. -/
def originsBehind (T : Topology V) (dist : V → Option FaceId × ℕ) (s : V) (p : Name) (f : FaceId) : List V :=
  T.order.filter fun v => v ≠ s ∧ p ∈ T.localPrefixes v ∧ (dist v).1 = some f

/-- The last of some vertices is the nearest of the origins: there is one when there is an origin, and no origin has a path that
is shorter than all of its paths. -/
def LastNearest (vs : List V) (O : V → Prop) (D : V → ℕ → Prop) : Prop :=
  ∀ u, O u → ∀ d, D u d → ∃ v, vs.getLast? = some v ∧ ∃ d' ≤ d, D v d'

theorem mem_originsBehind {dist : V → Option FaceId × ℕ} :
    v ∈ originsBehind T dist s p f ↔ Origin T s p v ∧ (dist v).1 = some f := by
  unfold originsBehind Origin
  rw [List.mem_filter]
  simp [and_assoc]

/-- The vertices that push a route are the origins behind its face, unless routes are refused. -/
theorem pushers_eq (dist : V → Option FaceId × ℕ) (isDisabled : FaceId → Bool) (hf : f ∈ T.faces s) :
    pushers T dist isDisabled s p f =
      if p.length ≤ maxDepth ∧ isDisabled f = false then originsBehind T dist s p f else [] := by
  unfold pushers originsBehind Pushes
  by_cases hpushed : p.length ≤ maxDepth ∧ isDisabled f = false
  · simp [hpushed, hf]
  · rw [if_neg hpushed]
    refine List.filter_eq_nil_iff.mpr fun v _ h => hpushed ?_
    obtain ⟨-, -, -, hdisabled, hlen, -⟩ := of_decide_eq_true h
    exact ⟨hlen, hdisabled⟩

omit [DecidableEq V] in
/-- **The last of some vertices gives the least cost just if it is the nearest.** -/
theorem getLast_isLeast_iff {vs : List V} {O : V → Prop} {D : V → ℕ → Prop} {x : V → ℕ}
    (hvs : ∀ v ∈ vs, O v ∧ IsLeast {d | D v d} (x v)) :
    (∀ c, vs.getLast?.map x = some c ↔ IsLeast {d | ∃ v, O v ∧ D v d} c) ↔ LastNearest vs O D := by
  constructor
  · intro h u hu d hd
    have hleast := Nat.sInf_mem (s := {d | ∃ v, O v ∧ D v d}) ⟨d, u, hu, hd⟩
    obtain ⟨v, hv, hx⟩ := Option.map_eq_some_iff.mp ((h _).mpr ⟨hleast, fun _ hd' => Nat.sInf_le hd'⟩)
    refine ⟨v, hv, x v, ?_, (hvs v (List.mem_of_getLast? hv)).2.1⟩
    rw [hx]
    exact Nat.sInf_le ⟨u, hu, hd⟩
  · intro h c
    constructor
    · intro hc
      obtain ⟨v, hv, rfl⟩ := Option.map_eq_some_iff.mp hc
      obtain ⟨hO, hD, hlower⟩ := hvs v (List.mem_of_getLast? hv)
      refine ⟨⟨v, hO, hD⟩, ?_⟩
      rintro d ⟨u, hu, hd⟩
      obtain ⟨v', hv', d', hle, hd'⟩ := h u hu d hd
      obtain rfl := Option.some.inj (hv.symm.trans hv')
      exact (hlower hd').trans hle
    · rintro ⟨⟨u, hu, hd⟩, hlower⟩
      obtain ⟨v, hv, d', hle, hd'⟩ := h u hu c hd
      obtain ⟨hO, hD, hleast⟩ := hvs v (List.mem_of_getLast? hv)
      rw [hv]
      exact congrArg some (((hleast hd').trans hle).antisymm (hlower ⟨v, hO, hD⟩))

omit [DecidableEq V] in
theorem face_of_through (hs : s ∈ T.nodes) (h : Through (T.graph w) s (some f) v d) :
    f ∈ T.faces s ∧ T.isNetDevice s f = true := by
  obtain ⟨_, _, _, ⟨i, hi, hface, -, -⟩, -, -⟩ := h
  obtain ⟨g, hg, hig, hdevice⟩ := T.incidency_face s hs i hi
  rw [hface] at hig
  obtain rfl := Option.some.inj hig
  exact ⟨hg, hdevice⟩

theorem through_weightsOf : Through (T.graph (weightsOf T w s f)) s (some f) v d ↔ Through (T.graph w) s (some f) v d := by
  have hedge : weightsOf T w s f s f = w s f := if_neg fun h => h.2.2 rfl
  have hoff : ∀ u ≠ s, weightsOf T w s f u = w u := fun u hu => by
    funext g
    exact if_neg fun h => hu h.1
  unfold Topology.graph
  refine through_congr (fun n x => ?_) fun u hu l n x => ?_
  · simp only [Option.elim_some, hedge]
  · rw [hoff u hu]

omit [DecidableEq V] in
theorem IsDijkstra.isLeast (h : IsDijkstra T dijkstra) (hs : s ∈ T.nodes) (hv : v ≠ s) (hf : (dijkstra w s v).1 = some f) :
    Through (T.graph w) s (some f) v (dijkstra w s v).2 ∧ Distance T w s v (dijkstra w s v).2 := by
  obtain ⟨-, hthrough, hleast⟩ := h.reached w s hs v hv f (dijkstra w s v).2 (Prod.ext hf rfl)
  refine ⟨hthrough, ⟨_, hthrough⟩, ?_⟩
  rintro d ⟨l, hd⟩
  exact hleast l d hd

omit [DecidableEq V] in
theorem nextHop_mem_iff (h : st.Ordered) : ⟨f, c⟩ ∈ st.fib s p ↔ st.cost s p f = some c :=
  (nextHopCost_eq_some_iff (h s p).1).symm

theorem ordered_calculateRoutes (h : st.Ordered) : (calculateRoutes T S dijkstra st).Ordered := by
  unfold calculateRoutes
  generalize T.nodes = nodes
  induction nodes generalizing st with
  | nil => exact h
  | cons v nodes ih => exact ih (foldl_addRoutes_spec T S _ _ v h T.order).1

theorem ordered_calculateAllPossibleRoutes (h : st.Ordered) : (calculateAllPossibleRoutes T S dijkstra st).Ordered := by
  unfold calculateAllPossibleRoutes
  generalize T.nodes = nodes
  induction nodes generalizing st with
  | nil => exact h
  | cons v nodes ih => exact ih (calculateAllPossibleRoutesNode_spec S dijkstra h v).1

/-- What `CalculateRoutes` pushes for a face has the least cost just if the last origin behind the face is the nearest. -/
theorem calculateRoutes_face_iff (hdijkstra : IsDijkstra T dijkstra) (hs : s ∈ T.nodes) (hfib : ∀ v p, st.fib v p = [])
    (hordered : st.Ordered) :
    (∀ c, ⟨f, c⟩ ∈ (calculateRoutes T S dijkstra st).fib s p ↔
        IsLeast {d | ∃ v ∈ originsBehind T (dijkstra (weights st.metrics) s) s p f, Distance T (weights st.metrics) s v d} c) ↔
      (originsBehind T (dijkstra (weights st.metrics) s) s p f ≠ [] → p.length ≤ maxDepth) ∧
        LastNearest (originsBehind T (dijkstra (weights st.metrics) s) s p f)
          (· ∈ originsBehind T (dijkstra (weights st.metrics) s) s p f) (Distance T (weights st.metrics) s) := by
  simp only [nextHop_mem_iff (ordered_calculateRoutes (S := S) hordered), calculateRoutes_costs hordered hs (hfib s)]
  have hbehind : ∀ v ∈ originsBehind T (dijkstra (weights st.metrics) s) s p f,
      Through (T.graph (weights st.metrics)) s (some f) v (dijkstra (weights st.metrics) s v).2 ∧
        Distance T (weights st.metrics) s v (dijkstra (weights st.metrics) s v).2 := by
    intro v hv
    obtain ⟨hO, hf⟩ := mem_originsBehind.mp hv
    exact hdijkstra.isLeast hs hO.2.1 hf
  have hleast : ∀ v ∈ pushers T (dijkstra (weights st.metrics) s) (fun _ => false) s p f,
      v ∈ originsBehind T (dijkstra (weights st.metrics) s) s p f ∧
        IsLeast {d | Distance T (weights st.metrics) s v d} (dijkstra (weights st.metrics) s v).2 := by
    intro v hv
    obtain ⟨hmem, hpush⟩ := List.mem_filter.mp hv
    obtain ⟨hv, hp, hf, -⟩ := of_decide_eq_true hpush
    have hmem := mem_originsBehind.mpr ⟨⟨hmem, hv, hp⟩, hf⟩
    exact ⟨hmem, (hbehind v hmem).2, fun d hd => (hbehind v hmem).2.2 hd.1⟩
  rw [getLast_isLeast_iff hleast]
  by_cases hnil : originsBehind T (dijkstra (weights st.metrics) s) s p f = []
  · unfold LastNearest
    simp [hnil]
  · obtain ⟨v, hv⟩ := List.exists_mem_of_ne_nil _ hnil
    have hface := face_of_through hs (hbehind v hv).1
    rw [pushers_eq _ _ hface.1]
    by_cases hlen : p.length ≤ maxDepth
    · rw [if_pos ⟨hlen, rfl⟩]
      exact (and_iff_right fun _ => hlen).symm
    · rw [if_neg fun h => hlen h.1]
      refine iff_of_false (fun h => ?_) fun h => hlen (h.1 hnil)
      obtain ⟨_, hlast, -⟩ := h v hv _ (hbehind v hv).2
      cases hlast

/-- What `CalculateAllPossibleRoutes` pushes for a face has the least cost just if the last origin whose paths begin with the
face, when the others are disabled, is the nearest. -/
theorem calculateAllPossibleRoutes_face_iff (hdijkstra : IsDijkstra T dijkstra) (hs : s ∈ T.nodes)
    (hfib : ∀ v p, st.fib v p = []) (hordered : st.Ordered) :
    (∀ c, ⟨f, c⟩ ∈ (calculateAllPossibleRoutes T S dijkstra st).fib s p ↔
        IsLeast {d | ∃ v, Origin T s p v ∧ Through (T.graph (weights st.metrics)) s (some f) v d} c) ↔
      ((∃ v d, Origin T s p v ∧ Through (T.graph (weights st.metrics)) s (some f) v d) →
          p.length ≤ maxDepth ∧ weights st.metrics s f ≠ disabled) ∧
        LastNearest (originsBehind T (dijkstra (weightsOf T (weights st.metrics) s f) s) s p f) (Origin T s p)
          (Through (T.graph (weights st.metrics)) s (some f)) := by
  simp only [nextHop_mem_iff (ordered_calculateAllPossibleRoutes (S := S) hordered),
    calculateAllPossibleRoutes_costs hordered hs (hfib s)]
  have hleast : ∀ v ∈ facePushers T dijkstra (weights st.metrics) s p f, Origin T s p v ∧
      IsLeast {d | Through (T.graph (weights st.metrics)) s (some f) v d}
        (dijkstra (weightsOf T (weights st.metrics) s f) s v).2 := by
    intro v hv
    obtain ⟨hmem, hpush⟩ := List.mem_filter.mp hv
    obtain ⟨hv, hp, hf, -⟩ := of_decide_eq_true hpush
    obtain ⟨hthrough, -, hleast⟩ := hdijkstra.isLeast hs hv hf
    exact ⟨⟨hmem, hv, hp⟩, through_weightsOf.mp hthrough, fun d hd => hleast ⟨_, through_weightsOf.mpr hd⟩⟩
  by_cases hreached : ∃ v d, Origin T s p v ∧ Through (T.graph (weights st.metrics)) s (some f) v d
  · obtain ⟨v, d, hO, hthrough⟩ := hreached
    have hface := face_of_through hs hthrough
    simp only [if_pos hface]
    unfold faceCost
    rw [getLast_isLeast_iff hleast, facePushers, pushers_eq _ _ hface.1]
    by_cases hpushed : p.length ≤ maxDepth ∧ weights st.metrics s f ≠ disabled
    · rw [if_pos ⟨hpushed.1, decide_eq_false hpushed.2⟩]
      exact (and_iff_right fun _ => hpushed).symm
    · rw [if_neg fun h => hpushed ⟨h.1, of_decide_eq_false h.2⟩]
      refine iff_of_false (fun h => ?_) fun h => hpushed (h.1 ⟨v, d, hO, hthrough⟩)
      obtain ⟨_, hlast, -⟩ := h v hO d hthrough
      cases hlast
  · have hnone : (if f ∈ T.faces s ∧ T.isNetDevice s f = true then faceCost T dijkstra (weights st.metrics) s p f else none) =
        none := by
      split_ifs
      · unfold faceCost
        cases hlast : (facePushers T dijkstra (weights st.metrics) s p f).getLast? with
        | none => rfl
        | some v =>
          obtain ⟨hO, hthrough, -⟩ := hleast v (List.mem_of_getLast? hlast)
          exact absurd ⟨v, _, hO, hthrough⟩ hreached
      · rfl
    rw [hnone]
    refine iff_of_true (fun c => iff_of_false (fun h => by cases h) ?_) ⟨fun h => absurd h hreached, ?_⟩
    · rintro ⟨⟨v, hO, hthrough⟩, -⟩
      exact hreached ⟨v, c, hO, hthrough⟩
    · intro v hO d hthrough
      exact absurd ⟨v, d, hO, hthrough⟩ hreached

/-- **When routes have the least costs.** The routes of `CalculateRoutes` for a prefix are the first faces of the shortest paths
that were found, with the least distances of the origins behind them, just if the last origin behind every face, in the order of
the map, is the nearest. The routes of `CalculateAllPossibleRoutes` have all faces that paths to origins begin with, and the least
weights of such paths, just if the last origin that was found behind every face is the nearest, and the metric of the face is not
that of a disabled face. Prefixes with routes have at most `maxDepth` components. -/
theorem routes_iff (S : NextHopSort) (hdijkstra : IsDijkstra T dijkstra) (hfib : ∀ v p, st.fib v p = []) (hs : s ∈ T.nodes)
    (p : Name) :
    ((∀ f c, ⟨f, c⟩ ∈ (calculateRoutes T S dijkstra st).fib s p ↔
        IsLeast {d | ∃ v ∈ originsBehind T (dijkstra (weights st.metrics) s) s p f, Distance T (weights st.metrics) s v d} c) ↔
      ∀ f, (originsBehind T (dijkstra (weights st.metrics) s) s p f ≠ [] → p.length ≤ maxDepth) ∧
        LastNearest (originsBehind T (dijkstra (weights st.metrics) s) s p f)
          (· ∈ originsBehind T (dijkstra (weights st.metrics) s) s p f) (Distance T (weights st.metrics) s)) ∧
    ((∀ f c, ⟨f, c⟩ ∈ (calculateAllPossibleRoutes T S dijkstra st).fib s p ↔
        IsLeast {d | ∃ v, Origin T s p v ∧ Through (T.graph (weights st.metrics)) s (some f) v d} c) ↔
      ∀ f, ((∃ v d, Origin T s p v ∧ Through (T.graph (weights st.metrics)) s (some f) v d) →
          p.length ≤ maxDepth ∧ weights st.metrics s f ≠ disabled) ∧
        LastNearest (originsBehind T (dijkstra (weightsOf T (weights st.metrics) s f) s) s p f) (Origin T s p)
          (Through (T.graph (weights st.metrics)) s (some f))) := by
  have hordered : st.Ordered := by
    intro v q
    rw [hfib]
    exact ⟨List.nodup_nil, List.Pairwise.nil⟩
  constructor
  · exact forall_congr' fun f => calculateRoutes_face_iff hdijkstra hs hfib hordered
  · exact forall_congr' fun f => calculateAllPossibleRoutes_face_iff hdijkstra hs hfib hordered

end Least

/-! ## A line of nodes -/

section Line

/-- Three nodes in a line, the last two of which are origins of a prefix. -/
def line (order : List (Fin 3)) (h : order.Nodup) : Topology (Fin 3) where
  nodes := [0, 1, 2]
  incidencies := ![[⟨some 257, 1⟩], [⟨some 257, 0⟩, ⟨some 258, 2⟩], [⟨some 257, 1⟩]]
  faces := ![[257], [257, 258], [257]]
  isNetDevice _ _ := true
  localPrefixes := ![[], [Tables.nameA], [Tables.nameA]]
  order := order
  nodup_nodes := by decide
  nodup_faces := by decide
  nodup_order := h
  incidency_face := by
    intro s _ i hi
    fin_cases s
    · obtain rfl := List.mem_singleton.mp hi
      exact ⟨257, by simp, rfl, rfl⟩
    · obtain rfl | rfl : i = ⟨some 257, 0⟩ ∨ i = ⟨some 258, 2⟩ := by simpa using hi
      · exact ⟨257, by simp, rfl, rfl⟩
      · exact ⟨258, by simp, rfl, rfl⟩
    · obtain rfl := List.mem_singleton.mp hi
      exact ⟨257, by simp, rfl, rfl⟩

def lineDistance (w : Fin 3 → FaceId → ℕ) : Fin 3 → Fin 3 → ℕ :=
  ![![0, w 0 257, w 0 257 + w 1 258], ![w 1 257, 0, w 1 258], ![w 2 257 + w 1 257, w 2 257, 0]]

def lineFace (s v : Fin 3) : FaceId := if s = 1 ∧ v = 2 then 258 else 257

def lineDijkstra : Dijkstra (Fin 3) := fun w s v =>
  if v ≠ s ∧ lineDistance w s v < weightInf then (some (lineFace s v), lineDistance w s v) else (none, weightInf)

variable {order : List (Fin 3)} {h : order.Nodup} {w : Fin 3 → FaceId → ℕ} {s u v x : Fin 3} {l : Option FaceId} {n d : ℕ}

theorem line_edge (he : (line order h).graph w u l n v) : lineDistance w u x ≤ n + lineDistance w v x := by
  obtain ⟨i, hi, rfl, rfl, rfl⟩ := he
  unfold line at hi
  fin_cases u
  · obtain rfl := List.mem_singleton.mp hi
    fin_cases x <;> simp [lineDistance]
  · obtain rfl | rfl : i = ⟨some 257, 0⟩ ∨ i = ⟨some 258, 2⟩ := by simpa using hi
    · fin_cases x <;> simp [lineDistance]
      omega
    · fin_cases x <;> simp [lineDistance]
      omega
  · obtain rfl := List.mem_singleton.mp hi
    fin_cases x <;> simp [lineDistance]

theorem lineDistance_le (hd : Through ((line order h).graph w) s l v d) : lineDistance w s v ≤ d := by
  obtain ⟨n, x, m, he, hwalk, rfl⟩ := hd
  have hedge := line_edge (x := v) he
  have hrest := hwalk.le_of_potential (φ := fun u => lineDistance w u v) fun u l n x _ _ he => line_edge he
  have hself : lineDistance w v v = 0 := by fin_cases v <;> rfl
  omega

theorem through_line (hv : v ≠ s) : Through ((line order h).graph w) s (some (lineFace s v)) v (lineDistance w s v) := by
  have e01 : (line order h).graph w 0 (some 257) (w 0 257) 1 := ⟨⟨some 257, 1⟩, by simp [line], rfl, rfl, rfl⟩
  have e10 : (line order h).graph w 1 (some 257) (w 1 257) 0 := ⟨⟨some 257, 0⟩, by simp [line], rfl, rfl, rfl⟩
  have e12 : (line order h).graph w 1 (some 258) (w 1 258) 2 := ⟨⟨some 258, 2⟩, by simp [line], rfl, rfl, rfl⟩
  have e21 : (line order h).graph w 2 (some 257) (w 2 257) 1 := ⟨⟨some 257, 1⟩, by simp [line], rfl, rfl, rfl⟩
  fin_cases s <;> fin_cases v
  · exact absurd rfl hv
  · exact ⟨_, _, 0, e01, .refl (by decide), rfl⟩
  · exact ⟨_, _, _, e01, .cons (by decide) e12 (.refl (by decide)), rfl⟩
  · exact ⟨_, _, 0, e10, .refl (by decide), rfl⟩
  · exact absurd rfl hv
  · exact ⟨_, _, 0, e12, .refl (by decide), rfl⟩
  · exact ⟨_, _, _, e21, .cons (by decide) e10 (.refl (by decide)), rfl⟩
  · exact ⟨_, _, 0, e21, .refl (by decide), rfl⟩
  · exact absurd rfl hv

theorem isDijkstra_line (order : List (Fin 3)) (h : order.Nodup) : IsDijkstra (line order h) lineDijkstra where
  reached := by
    intro w s _ v hv f d hdijkstra
    unfold lineDijkstra at hdijkstra
    split_ifs at hdijkstra with hfound
    · obtain ⟨rfl, rfl⟩ : lineFace s v = f ∧ lineDistance w s v = d := by simpa using hdijkstra
      exact ⟨hfound.2, through_line hv, fun l d' hd' => lineDistance_le hd'⟩
    · cases hdijkstra
  unreached := by
    intro w s _ v hv hnone l d hd
    unfold lineDijkstra at hnone
    split_ifs at hnone with hfound
    exact (Nat.not_lt.mp fun hlt => hfound ⟨hv, hlt⟩).trans (lineDistance_le hd)

theorem distance_line (hv : v ≠ s) : Distance (line order h) w s v (lineDistance w s v) :=
  ⟨⟨_, through_line hv⟩, fun _ ⟨_, hd⟩ => lineDistance_le hd⟩

def lineState : RoutingState (Fin 3) := ⟨fun _ _ => 1, fun _ _ => []⟩

/-- When the nearest origin is the last in the order of the map, the route has its distance. -/
theorem routes_iff_line :
    IsDijkstra (line [0, 2, 1] (by decide)) lineDijkstra ∧
    ∀ f c, ⟨f, c⟩ ∈ (calculateRoutes (line [0, 2, 1] (by decide)) Tables.insertionSort lineDijkstra lineState).fib 0 Tables.nameA ↔
      IsLeast {d | ∃ v ∈ originsBehind (line [0, 2, 1] (by decide)) (lineDijkstra (weights lineState.metrics) 0) 0 Tables.nameA f,
        Distance (line [0, 2, 1] (by decide)) (weights lineState.metrics) 0 v d} c := by
  have hdijkstra := isDijkstra_line [0, 2, 1] (by decide)
  have hfib : ∀ v p, lineState.fib v p = [] := fun _ _ => rfl
  have hiff := routes_iff (s := 0) Tables.insertionSort hdijkstra hfib (by decide) Tables.nameA
  refine ⟨hdijkstra, hiff.1.mpr fun f => ⟨fun _ => by decide, fun u hu d hd => ?_⟩⟩
  obtain rfl : f = 257 := by
    have hface := (mem_originsBehind.mp hu).2
    unfold lineDijkstra lineFace at hface
    split_ifs at hface with _ hs
    · exact absurd hs.1 (by decide)
    · exact (Option.some.inj hface).symm
  refine ⟨1, by decide, 1, ?_, distance_line (by decide)⟩
  obtain ⟨l, hthrough⟩ := hd.1
  refine le_trans ?_ (lineDistance_le hthrough)
  have hbehind : originsBehind (line [0, 2, 1] (by decide)) (lineDijkstra (weights lineState.metrics) 0) 0 Tables.nameA 257 =
      [2, 1] := by decide
  rw [hbehind] at hu
  obtain rfl | rfl : u = 2 ∨ u = 1 := by simpa using hu
  · decide
  · decide

/-- All distances are below `WeightInf`, and the nearest origin is at distance one, but the route has the distance of the other,
which is two. -/
theorem not_routes_line :
    IsDijkstra (line [0, 1, 2] (by decide)) lineDijkstra ∧
    (∀ s v, v ≠ s → ∃ d < weightInf, Distance (line [0, 1, 2] (by decide)) (weights lineState.metrics) s v d) ∧
    ¬ (∀ f c, ⟨f, c⟩ ∈ (calculateRoutes (line [0, 1, 2] (by decide)) Tables.insertionSort lineDijkstra lineState).fib 0
        Tables.nameA ↔
      IsLeast {d | ∃ v ∈ originsBehind (line [0, 1, 2] (by decide)) (lineDijkstra (weights lineState.metrics) 0) 0 Tables.nameA f,
        Distance (line [0, 1, 2] (by decide)) (weights lineState.metrics) 0 v d} c) ∧
    ¬ (∀ f c, ⟨f, c⟩ ∈ (calculateAllPossibleRoutes (line [0, 1, 2] (by decide)) Tables.insertionSort lineDijkstra lineState).fib 0
        Tables.nameA ↔
      IsLeast {d | ∃ v, Origin (line [0, 1, 2] (by decide)) 0 Tables.nameA v ∧
        Through ((line [0, 1, 2] (by decide)).graph (weights lineState.metrics)) 0 (some f) v d} c) := by
  refine ⟨isDijkstra_line _ _, fun s v hv => ⟨_, ?_, distance_line hv⟩, fun hleast => ?_, fun hleast => ?_⟩
  · revert s v
    decide
  · have hroute : (⟨257, 2⟩ : NextHop) ∈
        (calculateRoutes (line [0, 1, 2] (by decide)) Tables.insertionSort lineDijkstra lineState).fib 0 Tables.nameA := by decide
    exact absurd (((hleast 257 2).mp hroute).2 ⟨1, by decide, distance_line (by decide)⟩) (by decide)
  · have hroute : (⟨257, 2⟩ : NextHop) ∈ (calculateAllPossibleRoutes (line [0, 1, 2] (by decide)) Tables.insertionSort
        lineDijkstra lineState).fib 0 Tables.nameA := by decide
    have hnear : Through ((line [0, 1, 2] (by decide)).graph (weights lineState.metrics)) 0 (some 257) 1 1 :=
      through_line (by decide)
    exact absurd (((hleast 257 2).mp hroute).2 ⟨1, ⟨by decide, by decide, by decide⟩, hnear⟩) (by decide)

end Line

end Ns3Ndn.GlobalRouting
