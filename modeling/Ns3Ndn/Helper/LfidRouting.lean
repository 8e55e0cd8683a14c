import Ns3Ndn.Helper.GlobalRouting

/-!
# LFID routing

`CalculateLfidRoutes` of `ndnSIM/helper/lfid/ndn-global-routing-helper-lfid.cpp`, with the abstract FIBs of `abstract-fib.cpp`
and the next hops of `fib-nexthop.cpp`. The metrics of the faces of a node are infinite while the distances of its neighbours
are computed. They are remembered under the neighbours, not under the faces. A check that fails is an abort, `none`.

The removal of loops and dead ends is a parameter, as it knows nothing but the abstract FIBs. The list that it returns is in
the order of the map.

* `Reset`: the metrics of a node after its turn, `calculateLfidRoutesNode_reset`;
* **`metrics_iff`**: metrics stay as they are just if those of the links to the same neighbour are the same, and, in
  `CalculateAllPossibleRoutes`, if they have 16 bits.
-/

namespace Ns3Ndn.GlobalRouting

open WalkLib

/-! ## Abstract FIBs -/

inductive NextHopType where
  | downward
  | upward
  | disabled
deriving DecidableEq

structure FibNextHop where
  cost : ℤ
  nhId : ℕ
  costDelta : ℤ
  type : NextHopType
deriving DecidableEq

/-- `FibNextHop::MAX_COST`. -/
def maxCost : ℤ := 1000000

def nodeIdLimit : ℕ := 1000

/-- The constructor of `FibNextHop`. -/
def FibNextHop.make (cost : ℤ) (nhId : ℕ) (costDelta : ℤ) (type : NextHopType) : Option FibNextHop :=
  if 0 < cost ∧ cost ≤ maxCost ∧ nhId ≤ nodeIdLimit then some ⟨cost, nhId, costDelta, type⟩ else none

/-- `operator<` of next hops: by the cost difference, the cost and the identifier. -/
def FibNextHop.lt (own other : FibNextHop) : Prop :=
  own.costDelta < other.costDelta ∨ own.costDelta = other.costDelta ∧
    (own.cost < other.cost ∨ own.cost = other.cost ∧ own.nhId < other.nhId)

instance (own other : FibNextHop) : Decidable (own.lt other) := inferInstanceAs (Decidable (_ ∨ _))

def insertNextHop (nh : FibNextHop) : List FibNextHop → Option (List FibNextHop)
  | [] => some [nh]
  | other :: nhs =>
    if nh.lt other then some (nh :: other :: nhs)
    else if other.lt nh then (insertNextHop nh nhs).map (other :: ·)
    else none

structure AbstractFib (V : Type) where
  ownRouter : V
  nodeId : ℕ
  perDstFib : List (ℕ × List FibNextHop)
  upwardPerDstFib : List (ℕ × List FibNextHop)

def insertAt (dstId : ℕ) (nh : FibNextHop) : List (ℕ × List FibNextHop) → Option (List (ℕ × List FibNextHop))
  | [] => none
  | (id, nhs) :: fib =>
    if id = dstId then (insertNextHop nh nhs).map fun nhs => (id, nhs) :: fib
    else (insertAt dstId nh fib).map ((id, nhs) :: ·)

variable {V : Type} [DecidableEq V]

def AbstractFib.make (own : V) (nodeId : ℕ) (nodeName : Bytes) (nodeDegree numNodes : ℕ) : Option (AbstractFib V) :=
  let maxSize := 100000
  if nodeId ≤ maxSize ∧ 0 < nodeName.length ∧ nodeName.length ≤ maxSize ∧ nodeDegree ≤ maxSize ∧ 1 < numNodes ∧
      numNodes ≤ maxSize then
    let emptyFib := ((List.range numNodes).filter (· ≠ nodeId)).map fun dstId => (dstId, [])
    some ⟨own, nodeId, emptyFib, emptyFib⟩
  else none

/-- `AbstractFib::insert`. -/
def AbstractFib.insert (fib : AbstractFib V) (dstId : ℕ) (nh : FibNextHop) : Option (AbstractFib V) :=
  if nh.type = .disabled ∨ nh.nhId = fib.nodeId then none
  else do
    let perDstFib ← insertAt dstId nh fib.perDstFib
    if nh.type = .upward then
      let upwardPerDstFib ← insertAt dstId nh fib.upwardPerDstFib
      some { fib with perDstFib := perDstFib, upwardPerDstFib := upwardPerDstFib }
    else some { fib with perDstFib := perDstFib }

/-- `AbstractFib::checkFib`. -/
def AbstractFib.checkFib (fib : AbstractFib V) : Prop :=
  fib.perDstFib ≠ [] ∧ ∀ e ∈ fib.perDstFib, (∀ nh ∈ e.2, 0 < nh.cost ∧ nh.cost < maxCost) ∧
    (e.2.map FibNextHop.nhId).Nodup ∧ (e.2 ≠ [] → ∃ nh ∈ e.2, nh.type = .downward)

omit [DecidableEq V] in
instance (fib : AbstractFib V) : Decidable fib.checkFib := inferInstanceAs (Decidable (_ ∧ _))

/-! ## The code -/

def toInt (n : ℕ) : ℤ := (n : ℤ).bmod (2 ^ 32)

structure Neighbors where
  originalMetrics : ℕ → Option ℕ := fun _ => none
  originalFace : ℕ → Option FaceId := fun _ => none

structure LfidState (V : Type) where
  routing : RoutingState V
  allNodeFib : List (AbstractFib V) := []
  faceMap : ℕ → ℕ → Option FaceId := fun _ _ => none

section Code

variable (T : Topology V) (S : NextHopSort) (dijkstra : Dijkstra V) (nodeId : V → ℕ) (nodeName : V → Bytes)
  (removeLoopsAndDeadEnds : List (AbstractFib V) → Option (List (AbstractFib V)))

def setWeight (source : V) (acc : RoutingState V × Neighbors) (neighbor : Incidency V) :
    Option (RoutingState V × Neighbors) :=
  let nbId := nodeId neighbor.target
  if nbId = nodeId source then none
  else match neighbor.face with
    | none => none
    | some face => some (acc.1.setMetric source face weightInf, {
        originalMetrics := Function.update acc.2.originalMetrics nbId (some (acc.1.metrics source face))
        originalFace := Function.update acc.2.originalFace nbId (some face) })

def resetWeight (originalMetrics : ℕ → Option ℕ) (source : V) (st : RoutingState V) (neighbor : Incidency V) :
    Option (RoutingState V) :=
  let nbId := nodeId neighbor.target
  if nbId = nodeId source then none
  else match neighbor.face with
    | none => none
    | some face =>
      if st.metrics source face = weightInf then (originalMetrics nbId).map fun metric => st.setMetric source face metric
      else none

def insertNextHops (source : V) (metrics : V → FaceId → ℕ) (distMap : V → ℕ) (originalFace : ℕ → Option FaceId)
    (neighborSpMap : List (ℕ × (V → ℕ))) (fib : AbstractFib V) (dstRouter : V) : Option (AbstractFib V) :=
  if dstRouter = source then some fib
  else
    let spTotalCost := toInt (distMap dstRouter)
    neighborSpMap.foldlM (fun fib nb => do
      let face ← originalFace nb.1
      let neighborCost := toInt (nb.2 dstRouter)
      let neighborTotalCost := neighborCost + toInt (metrics source face)
      if neighborTotalCost < spTotalCost then none
      else if (weightInf : ℤ) ≤ neighborTotalCost then some fib
      else
        let nbType := if neighborCost < spTotalCost then NextHopType.downward else .upward
        let nh ← FibNextHop.make neighborTotalCost nb.1 (neighborTotalCost - spTotalCost) nbType
        fib.insert (nodeId dstRouter) nh) fib

/-- The turn of a node. The distances of a neighbour that is met again replace those before. -/
def calculateLfidRoutesNode (acc : LfidState V) (source : V) : Option (LfidState V) := do
  let fib ← AbstractFib.make source (nodeId source) (nodeName source) (T.incidencies source).length T.nodes.length
  let distMap := fun v => (dijkstra (weights acc.routing.metrics) source v).2
  let (st, nbs) ← (T.incidencies source).foldlM (setWeight nodeId source) (acc.routing, {})
  if ∃ i ∈ T.incidencies source, i.target = source ∨ nodeId i.target = nodeId source then none
  else
    let neighborSpMap := ((T.incidencies source).pwFilter fun i j => nodeId i.target ≠ nodeId j.target).map fun i =>
      (nodeId i.target, fun v => (dijkstra (weights st.metrics) i.target v).2)
    let st ← (T.incidencies source).foldlM (resetWeight nodeId nbs.originalMetrics source) st
    let fib ← T.order.foldlM (insertNextHops nodeId source st.metrics distMap nbs.originalFace neighborSpMap) fib
    if fib.checkFib then
      some ⟨st, acc.allNodeFib ++ [fib], Function.update acc.faceMap (nodeId source) nbs.originalFace⟩
    else none

def insertRoutes (allNodeFib : List (AbstractFib V)) (faceMap : ℕ → ℕ → Option FaceId) (st : RoutingState V)
    (fib : AbstractFib V) : Option (RoutingState V) :=
  fib.perDstFib.foldlM (fun st dst => do
    let dstFib ← allNodeFib.find? fun fib => fib.nodeId = dst.1
    dst.2.foldlM (fun st nh =>
      (T.localPrefixes dstFib.ownRouter).foldlM (fun st p => do
        let face ← faceMap fib.nodeId nh.nhId
        some (addRoute T S st fib.ownRouter p face nh.cost.toNat)) st) st) st

def calculateLfidRoutes (st : RoutingState V) : Option (RoutingState V) := do
  let acc ← T.nodes.foldlM (calculateLfidRoutesNode T dijkstra nodeId nodeName) { routing := st }
  let allNodeFib ← removeLoopsAndDeadEnds acc.allNodeFib
  allNodeFib.foldlM (insertRoutes T S allNodeFib acc.faceMap) acc.routing

end Code

/-! ## The metrics of a node -/

section Node

variable {T : Topology V} {dijkstra : Dijkstra V} {nodeId : V → ℕ} {nodeName : V → Bytes} {source : V} {f : FaceId}
  {neighbors : List (Incidency V)}

theorem setWeight_eq_some {acc acc' : RoutingState V × Neighbors} {i : Incidency V}
    (h : setWeight nodeId source acc i = some acc') :
    ∃ f, i.face = some f ∧ acc'.1 = acc.1.setMetric source f weightInf ∧
      acc'.2.originalMetrics = Function.update acc.2.originalMetrics (nodeId i.target) (some (acc.1.metrics source f)) := by
  unfold setWeight at h
  dsimp only at h
  split_ifs at h
  cases hf : i.face with
  | none =>
    rw [hf] at h
    cases h
  | some f =>
    rw [hf] at h
    obtain rfl := Option.some.inj h
    exact ⟨f, rfl, rfl, rfl⟩

variable {originalMetrics : ℕ → Option ℕ}

theorem resetWeight_eq_some {st st' : RoutingState V} {i : Incidency V}
    (h : resetWeight nodeId originalMetrics source st i = some st') :
    ∃ f metric, i.face = some f ∧ originalMetrics (nodeId i.target) = some metric ∧ st' = st.setMetric source f metric := by
  unfold resetWeight at h
  dsimp only at h
  split_ifs at h
  cases hf : i.face with
  | none =>
    rw [hf] at h
    cases h
  | some f =>
    rw [hf] at h
    dsimp only at h
    split_ifs at h
    obtain ⟨metric, hmetric, rfl⟩ := Option.map_eq_some_iff.mp h
    exact ⟨f, metric, rfl, hmetric, rfl⟩

theorem foldlM_setWeight {st : RoutingState V} {acc : RoutingState V × Neighbors} (hfaces : (neighbors.map Incidency.face).Nodup)
    (h : neighbors.foldlM (setWeight nodeId source) (st, {}) = some acc) :
    (∀ u g, (u ≠ source ∨ ∀ i ∈ neighbors, i.face ≠ some g) → acc.1.metrics u g = st.metrics u g) ∧
      ∀ i ∈ neighbors, ∃ j ∈ neighbors, ∃ f, j.face = some f ∧ nodeId j.target = nodeId i.target ∧
        acc.2.originalMetrics (nodeId i.target) = some (st.metrics source f) := by
  induction neighbors using List.reverseRecOn generalizing acc with
  | nil =>
    obtain rfl := Option.some.inj h
    exact ⟨fun u g _ => rfl, fun i hi => absurd hi List.not_mem_nil⟩
  | append_singleton neighbors j ih =>
    rw [List.foldlM_append] at h
    obtain ⟨acc₁, hbefore, hj⟩ := Option.bind_eq_some_iff.mp h
    rw [List.map_append, List.nodup_append] at hfaces
    obtain ⟨hbeforeFaces, -, hdisjoint⟩ := hfaces
    obtain ⟨hframe, hremembered⟩ := ih hbeforeFaces hbefore
    have hstep : setWeight nodeId source acc₁ j = some acc := by simpa using hj
    obtain ⟨f, hf, hst, hmetrics⟩ := setWeight_eq_some hstep
    have hnew : ∀ i ∈ neighbors, i.face ≠ some f := fun i hi h =>
      hdisjoint _ (List.mem_map_of_mem hi) _ (List.mem_singleton_self _) (h.trans hf.symm)
    constructor
    · intro u g hug
      have hne : ¬ (u = source ∧ g = f) := by
        rintro ⟨rfl, rfl⟩
        exact hug.elim (fun h => h rfl) fun h => h j (by simp) hf
      rw [hst]
      unfold RoutingState.setMetric
      dsimp only
      rw [if_neg hne]
      exact hframe u g (hug.imp_right fun h i hi => h i (List.mem_append_left _ hi))
    · intro i hi
      rw [hmetrics]
      by_cases hid : nodeId i.target = nodeId j.target
      · refine ⟨j, by simp, f, hf, hid.symm, ?_⟩
        rw [hid, Function.update_self, hframe source f (Or.inr hnew)]
      · have hmem : i ∈ neighbors := (List.mem_append.mp hi).resolve_right fun h => hid (by rw [List.mem_singleton.mp h])
        obtain ⟨k, hk, g, hg, htarget, hvalue⟩ := hremembered i hmem
        exact ⟨k, List.mem_append_left _ hk, g, hg, htarget, by rw [Function.update_of_ne hid, hvalue]⟩

theorem foldlM_resetWeight {st st' : RoutingState V} (hfaces : (neighbors.map Incidency.face).Nodup)
    (h : neighbors.foldlM (resetWeight nodeId originalMetrics source) st = some st') :
    (∀ u g, (u ≠ source ∨ ∀ i ∈ neighbors, i.face ≠ some g) → st'.metrics u g = st.metrics u g) ∧
      ∀ i ∈ neighbors, ∀ f, i.face = some f → originalMetrics (nodeId i.target) = some (st'.metrics source f) := by
  induction neighbors using List.reverseRecOn generalizing st' with
  | nil =>
    obtain rfl := Option.some.inj h
    exact ⟨fun u g _ => rfl, fun i hi => absurd hi List.not_mem_nil⟩
  | append_singleton neighbors j ih =>
    rw [List.foldlM_append] at h
    obtain ⟨st₁, hbefore, hj⟩ := Option.bind_eq_some_iff.mp h
    rw [List.map_append, List.nodup_append] at hfaces
    obtain ⟨hbeforeFaces, -, hdisjoint⟩ := hfaces
    obtain ⟨hframe, hreset⟩ := ih hbeforeFaces hbefore
    have hstep : resetWeight nodeId originalMetrics source st₁ j = some st' := by simpa using hj
    obtain ⟨f, metric, hf, hmetric, rfl⟩ := resetWeight_eq_some hstep
    unfold RoutingState.setMetric
    dsimp only
    constructor
    · intro u g hug
      have hne : ¬ (u = source ∧ g = f) := by
        rintro ⟨rfl, rfl⟩
        exact hug.elim (fun h => h rfl) fun h => h j (by simp) hf
      rw [if_neg hne]
      exact hframe u g (hug.imp_right fun h i hi => h i (List.mem_append_left _ hi))
    · intro i hi g hg
      rcases List.mem_append.mp hi with hi | hi
      · have hne : g ≠ f := by
          rintro rfl
          exact hdisjoint _ (List.mem_map_of_mem hi) _ (List.mem_singleton_self _) (hg.trans hf.symm)
        rw [if_neg fun h => hne h.2]
        exact hreset i hi g hg
      · obtain rfl := List.mem_singleton.mp hi
        obtain rfl := Option.some.inj (hf.symm.trans hg)
        rw [if_pos ⟨rfl, rfl⟩, hmetric]

/-- **The metrics of a node after its turn**: the faces of the links to a neighbour have the metric of one of them. -/
def Reset (neighbors : List (Incidency V)) (nodeId : V → ℕ) (before after : FaceId → ℕ) : Prop :=
  (∀ g, (∀ i ∈ neighbors, i.face ≠ some g) → after g = before g) ∧
    ∀ i ∈ neighbors, ∃ j ∈ neighbors, ∃ g, j.face = some g ∧ nodeId j.target = nodeId i.target ∧
      ∀ k ∈ neighbors, ∀ f, k.face = some f → nodeId k.target = nodeId i.target → after f = before g

omit [DecidableEq V] in
theorem Reset.eq_iff {before after : FaceId → ℕ} (h : Reset neighbors nodeId before after) :
    after = before ↔ ∀ i ∈ neighbors, ∀ j ∈ neighbors, nodeId i.target = nodeId j.target →
      ∀ f g, i.face = some f → j.face = some g → before f = before g := by
  obtain ⟨hframe, hreset⟩ := h
  constructor
  · rintro rfl i hi j hj htarget f g hf hg
    obtain ⟨_, _, _, _, _, hall⟩ := hreset j hj
    rw [hall i hi f hf htarget, hall j hj g hg rfl]
  · intro hsame
    funext g
    by_cases hg : ∃ i ∈ neighbors, i.face = some g
    · obtain ⟨i, hi, hface⟩ := hg
      obtain ⟨j, hj, f, hf, htarget, hall⟩ := hreset i hi
      rw [hall i hi g hface rfl]
      exact hsame j hj i hi htarget f g hf hface
    · exact hframe g fun i hi hface => hg ⟨i, hi, hface⟩

/-- **The turn of a node** resets its metrics, and leaves those of other nodes alone. -/
theorem calculateLfidRoutesNode_reset {acc acc' : LfidState V} (hfaces : ((T.incidencies source).map Incidency.face).Nodup)
    (h : calculateLfidRoutesNode T dijkstra nodeId nodeName acc source = some acc') :
    (∀ u ≠ source, acc'.routing.metrics u = acc.routing.metrics u) ∧
      Reset (T.incidencies source) nodeId (acc.routing.metrics source) (acc'.routing.metrics source) := by
  unfold calculateLfidRoutesNode at h
  obtain ⟨fib, -, h⟩ := Option.bind_eq_some_iff.mp h
  obtain ⟨⟨st, nbs⟩, hset, h⟩ := Option.bind_eq_some_iff.mp h
  dsimp only at h
  split_ifs at h
  obtain ⟨st', hreset, h⟩ := Option.bind_eq_some_iff.mp h
  obtain ⟨fib', -, h⟩ := Option.bind_eq_some_iff.mp h
  split_ifs at h
  obtain rfl := Option.some.inj h
  obtain ⟨hframe, hremembered⟩ := foldlM_setWeight hfaces hset
  obtain ⟨hframe', hreset⟩ := foldlM_resetWeight hfaces hreset
  refine ⟨fun u hu => funext fun g => ?_, fun g hg => ?_, fun i hi => ?_⟩
  · exact (hframe' u g (Or.inl hu)).trans (hframe u g (Or.inl hu))
  · exact (hframe' source g (Or.inr hg)).trans (hframe source g (Or.inr hg))
  · obtain ⟨j, hj, g, hg, htarget, hvalue⟩ := hremembered i hi
    refine ⟨j, hj, g, hg, htarget, fun k hk f hf hid => ?_⟩
    have := hreset k hk f hf
    rw [hid, hvalue] at this
    exact (Option.some.inj this).symm

end Node

/-! ## The metrics of all nodes -/

section Run

variable {T : Topology V} {S : NextHopSort} {dijkstra : Dijkstra V} {nodeId : V → ℕ} {nodeName : V → Bytes}
  {removeLoopsAndDeadEnds : List (AbstractFib V) → Option (List (AbstractFib V))} {st st' : RoutingState V}

theorem foldlM_calculateLfidRoutesNode {nodes : List V} {acc acc' : LfidState V} (hnodup : nodes.Nodup)
    (hfaces : ∀ s ∈ nodes, ((T.incidencies s).map Incidency.face).Nodup)
    (h : nodes.foldlM (calculateLfidRoutesNode T dijkstra nodeId nodeName) acc = some acc') :
    (∀ u ∉ nodes, acc'.routing.metrics u = acc.routing.metrics u) ∧
      ∀ s ∈ nodes, Reset (T.incidencies s) nodeId (acc.routing.metrics s) (acc'.routing.metrics s) := by
  induction nodes generalizing acc with
  | nil =>
    obtain rfl := Option.some.inj h
    exact ⟨fun u _ => rfl, fun s hs => absurd hs List.not_mem_nil⟩
  | cons v nodes ih =>
    rw [List.foldlM_cons] at h
    obtain ⟨acc₁, hv, hrest⟩ := Option.bind_eq_some_iff.mp h
    obtain ⟨hnew, hnodup⟩ := List.nodup_cons.mp hnodup
    obtain ⟨hframe, hreset⟩ := calculateLfidRoutesNode_reset (hfaces v List.mem_cons_self) hv
    obtain ⟨hframe', hreset'⟩ := ih hnodup (fun s hs => hfaces s (List.mem_cons_of_mem _ hs)) hrest
    constructor
    · intro u hu
      obtain ⟨hne, hu⟩ := List.ne_and_not_mem_of_not_mem_cons hu
      exact (hframe' u hu).trans (hframe u hne)
    · intro s hs
      rcases List.mem_cons.mp hs with rfl | hs
      · rw [hframe' s hnew]
        exact hreset
      · have hne : s ≠ v := fun h => hnew (h ▸ hs)
        rw [← hframe s hne]
        exact hreset' s hs

omit [DecidableEq V] in
theorem foldlM_metrics {α : Type} {step : RoutingState V → α → Option (RoutingState V)}
    (hstep : ∀ st a st', step st a = some st' → st'.metrics = st.metrics) {as : List α} {st st' : RoutingState V}
    (h : as.foldlM step st = some st') : st'.metrics = st.metrics := by
  induction as generalizing st with
  | nil => rw [Option.some.inj h]
  | cons a as ih =>
    rw [List.foldlM_cons] at h
    obtain ⟨st₁, hfirst, hrest⟩ := Option.bind_eq_some_iff.mp h
    exact (ih hrest).trans (hstep st a st₁ hfirst)

theorem insertRoutes_metrics {allNodeFib : List (AbstractFib V)} {faceMap : ℕ → ℕ → Option FaceId} {fib : AbstractFib V}
    (h : insertRoutes T S allNodeFib faceMap st fib = some st') : st'.metrics = st.metrics := by
  unfold insertRoutes at h
  refine foldlM_metrics (fun st dst st' h => ?_) h
  obtain ⟨dstFib, -, h⟩ := Option.bind_eq_some_iff.mp h
  refine foldlM_metrics (fun st nh st' h => ?_) h
  refine foldlM_metrics (fun st p st' h => ?_) h
  obtain ⟨face, -, h⟩ := Option.bind_eq_some_iff.mp h
  rw [← Option.some.inj h, addRoute_metrics]

theorem calculateLfidRoutes_metrics_iff (hfaces : ∀ s ∈ T.nodes, ((T.incidencies s).map Incidency.face).Nodup)
    (h : calculateLfidRoutes T S dijkstra nodeId nodeName removeLoopsAndDeadEnds st = some st') :
    st'.metrics = st.metrics ↔ ∀ s ∈ T.nodes, ∀ i ∈ T.incidencies s, ∀ j ∈ T.incidencies s,
      nodeId i.target = nodeId j.target →
        ∀ f g, i.face = some f → j.face = some g → st.metrics s f = st.metrics s g := by
  unfold calculateLfidRoutes at h
  obtain ⟨acc, hnodes, h⟩ := Option.bind_eq_some_iff.mp h
  obtain ⟨allNodeFib, -, h⟩ := Option.bind_eq_some_iff.mp h
  rw [foldlM_metrics (fun _ _ _ => insertRoutes_metrics) h]
  obtain ⟨hframe, hreset⟩ := foldlM_calculateLfidRoutesNode T.nodup_nodes hfaces hnodes
  constructor
  · intro heq s hs
    exact (hreset s hs).eq_iff.mp (congrFun heq s)
  · intro hsame
    funext s
    by_cases hs : s ∈ T.nodes
    · exact (hreset s hs).eq_iff.mpr (hsame s hs)
    · exact hframe s hs

theorem restoredMetrics_eq_iff {m : V → FaceId → ℕ} {nodes : List V} :
    restoredMetrics T m nodes = m ↔ ∀ s ∈ nodes, ∀ f ∈ T.faces s, m s f < 2 ^ 16 := by
  constructor
  · intro h s hs f hf
    rw [← congrFun (congrFun h s) f, restoredMetrics, if_pos ⟨hs, hf⟩]
    exact Nat.mod_lt _ (by decide)
  · intro h
    funext s f
    unfold restoredMetrics
    by_cases hsf : s ∈ nodes ∧ f ∈ T.faces s
    · rw [if_pos hsf, Nat.mod_eq_of_lt (h s hsf.1 f hsf.2)]
    · rw [if_neg hsf]

/-- **When metrics stay as they are.** The links of a node have faces of their own. `CalculateLfidRoutes`, when it does not abort,
leaves all metrics alone just if those of the links of a node to the same neighbour are the same. `CalculateAllPossibleRoutes`
does just if metrics have 16 bits. -/
theorem metrics_iff (S : NextHopSort) (dijkstra : Dijkstra V) (nodeId : V → ℕ) (nodeName : V → Bytes)
    (removeLoopsAndDeadEnds : List (AbstractFib V) → Option (List (AbstractFib V))) (st : RoutingState V)
    (hfaces : ∀ s ∈ T.nodes, ((T.incidencies s).map Incidency.face).Nodup) :
    (∀ st', calculateLfidRoutes T S dijkstra nodeId nodeName removeLoopsAndDeadEnds st = some st' →
      (st'.metrics = st.metrics ↔ ∀ s ∈ T.nodes, ∀ i ∈ T.incidencies s, ∀ j ∈ T.incidencies s,
        nodeId i.target = nodeId j.target →
          ∀ f g, i.face = some f → j.face = some g → st.metrics s f = st.metrics s g)) ∧
    ((calculateAllPossibleRoutes T S dijkstra st).metrics = st.metrics ↔
      ∀ s ∈ T.nodes, ∀ f ∈ T.faces s, st.metrics s f < 2 ^ 16) := by
  refine ⟨fun st' h => calculateLfidRoutes_metrics_iff hfaces h, ?_⟩
  rw [calculateAllPossibleRoutes_metrics]
  exact restoredMetrics_eq_iff

end Run

/-! ## Parallel links -/

section Parallel

/-- Two nodes with two links between them. -/
def parallel : Topology Bool where
  nodes := [false, true]
  incidencies v := [⟨some 257, !v⟩, ⟨some 258, !v⟩]
  faces _ := [257, 258]
  isNetDevice _ _ := true
  localPrefixes _ := [Tables.nameA]
  order := [false, true]
  nodup_nodes := by decide
  nodup_faces := by decide
  nodup_order := by decide
  incidency_face := by simp

def parallelDijkstra : Dijkstra Bool := fun w s v =>
  if v = s then (none, 0)
  else if min (w s 257) (w s 258) < weightInf then (some (if w s 257 ≤ w s 258 then 257 else 258), min (w s 257) (w s 258))
  else (none, weightInf)

def parallelState (metric metric' : ℕ) : RoutingState Bool := ⟨fun _ f => if f = 257 then metric else metric', fun _ _ => []⟩

def parallelLfid (metric metric' : ℕ) : Option (RoutingState Bool) :=
  calculateLfidRoutes parallel Tables.insertionSort parallelDijkstra Bool.toNat (fun v => if v then [66] else [65]) some
    (parallelState metric metric')

theorem parallel_le {w : Bool → FaceId → ℕ} {s v : Bool} {l : Option FaceId} {d : ℕ}
    (h : Through (parallel.graph w) s l v d) : min (w s 257) (w s 258) ≤ d := by
  obtain ⟨n, x, m, ⟨i, hi, rfl, rfl, rfl⟩, -, rfl⟩ := h
  obtain rfl | rfl : i = ⟨some 257, !s⟩ ∨ i = ⟨some 258, !s⟩ := by simpa [parallel] using hi
  · exact (min_le_left _ _).trans (Nat.le_add_right _ _)
  · exact (min_le_right _ _).trans (Nat.le_add_right _ _)

theorem through_parallel {w : Bool → FaceId → ℕ} {s : Bool} {f : FaceId} (hf : f = 257 ∨ f = 258) :
    Through (parallel.graph w) s (some f) (!s) (w s f) :=
  ⟨w s f, !s, 0, ⟨⟨some f, !s⟩, by rcases hf with rfl | rfl <;> simp [parallel], rfl, rfl, rfl⟩, .refl (Bool.not_ne_self s), rfl⟩

theorem isDijkstra_parallel : IsDijkstra parallel parallelDijkstra where
  reached := by
    intro w s _ v hv f d h
    obtain rfl := Bool.eq_not.mpr hv
    unfold parallelDijkstra at h
    rw [if_neg hv] at h
    split_ifs at h with hfound hle
    · obtain ⟨rfl, rfl⟩ : 257 = f ∧ min (w s 257) (w s 258) = d := by simpa using h
      refine ⟨hfound, ?_, fun l d' => parallel_le⟩
      rw [min_eq_left hle]
      exact through_parallel (Or.inl rfl)
    · obtain ⟨rfl, rfl⟩ : 258 = f ∧ min (w s 257) (w s 258) = d := by simpa using h
      refine ⟨hfound, ?_, fun l d' => parallel_le⟩
      rw [min_eq_right (not_le.mp hle).le]
      exact through_parallel (Or.inr rfl)
    · cases h
  unreached := by
    intro w s _ v hv h l d hd
    unfold parallelDijkstra at h
    rw [if_neg hv] at h
    split_ifs at h with hfound
    · exact (not_lt.mp hfound).trans (parallel_le hd)

/-- All metrics are one. -/
theorem metrics_iff_parallel : ∃ st', parallelLfid 1 1 = some st' ∧ st'.metrics = (parallelState 1 1).metrics ∧
    (calculateAllPossibleRoutes parallel Tables.insertionSort parallelDijkstra (parallelState 1 1)).metrics =
      (parallelState 1 1).metrics := by
  obtain ⟨hlfid, hall⟩ := metrics_iff (T := parallel) Tables.insertionSort parallelDijkstra Bool.toNat
    (fun v => if v then [66] else [65]) some (parallelState 1 1) (by decide)
  have hrun : (parallelLfid 1 1).isSome = true := by decide
  obtain ⟨st', hst'⟩ := Option.isSome_iff_exists.mp hrun
  refine ⟨st', hst', (hlfid st' hst').mpr fun s _ i _ j _ _ f g _ _ => ?_, hall.mpr fun s _ f _ => ?_⟩
  · unfold parallelState
    simp
  · unfold parallelState
    simp

/-- The link with the metric one has the metric two afterwards. -/
theorem not_metrics_parallel : IsDijkstra parallel parallelDijkstra ∧
    ∃ st', parallelLfid 1 2 = some st' ∧ st'.metrics ≠ (parallelState 1 2).metrics := by
  refine ⟨isDijkstra_parallel, ?_⟩
  have hrun : (parallelLfid 1 2).map (fun st' => st'.metrics false 257) = some 2 := by decide
  obtain ⟨st', hst', hmetric⟩ := Option.map_eq_some_iff.mp hrun
  refine ⟨st', hst', fun h => ?_⟩
  rw [h] at hmetric
  exact absurd hmetric (by decide)

end Parallel

end Ns3Ndn.GlobalRouting
