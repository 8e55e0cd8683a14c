import Ns3Ndn.Rib.Tree

/-!
# FIB updates

`NFD/daemon/rib/fib-updater.cpp` up to the sending of commands: from one RIB update it computes the
FIB updates, apart for the face of the batch and for the other faces, and the inherited routes that
are to be recorded in the RIB.

`Rib::RouteSet` orders routes by face, so it has one route for a face. The recursions along parents
and children have the length of names as fuel. `none` stands for the use of the null pointer
`prevRoute`.
-/

namespace Ns3Ndn

open OrdLib

/-! ## Updates -/

inductive FibAction where
  | addNextHop
  | removeNextHop
deriving DecidableEq

structure FibUpdate where
  name : Name
  faceId : ℕ
  cost : ℕ := 0
  action : FibAction
deriving DecidableEq

namespace FibUpdate

def createAddUpdate (name : Name) (faceId cost : ℕ) : FibUpdate := ⟨name, faceId, cost, .addNextHop⟩

def createRemoveUpdate (name : Name) (faceId : ℕ) : FibUpdate := ⟨name, faceId, 0, .removeNextHop⟩

def sameTarget (u v : FibUpdate) : Bool := u.name == v.name && u.faceId == v.faceId

end FibUpdate

inductive RibAction where
  | register
  | unregister
  | removeFace
deriving DecidableEq

structure RibUpdate where
  action : RibAction
  name : Name
  route : Route
deriving DecidableEq

/-- `Rib::RouteSet`: at most one route for a face. -/
structure RouteSet where
  routes : OrdMap ℕ Route
  keyed : ∀ {f r}, routes.find? f = some r → r.faceId = f

namespace RouteSet

def empty : RouteSet := ⟨OrdMap.empty, fun h => by cases h⟩

variable (rs : RouteSet)

def find? (f : ℕ) : Option Route := rs.routes.find? f

def insert (r : Route) : RouteSet where
  routes := rs.routes.insertNew r.faceId r
  keyed := by
    intro f r' h
    rw [OrdMap.find?_insertNew] at h
    cases hf : rs.routes.find? f with
    | some r'' =>
      rw [hf, Option.some_or, Option.some_inj] at h
      exact h ▸ rs.keyed hf
    | none =>
      rw [hf, Option.none_or] at h
      split_ifs at h with hr
      rw [← Option.some.inj h, hr]

def erase (f : ℕ) : RouteSet where
  routes := rs.routes.erase f
  keyed := by
    intro g r h
    rw [OrdMap.find?_erase] at h
    split_ifs at h
    exact rs.keyed h

/-- Keep the routes on the faces that satisfy `q`. -/
def filter (q : ℕ → Bool) : RouteSet where
  routes := rs.routes.filter q
  keyed := by
    intro g r h
    rw [OrdMap.find?_filter] at h
    split_ifs at h
    exact rs.keyed h

def toList : List Route := rs.routes.toList.map Prod.snd

def ofRoute (r : Route) : RouteSet := empty.insert r

def insertChildInherit (routes : List Route) : RouteSet :=
  routes.foldl (fun rs r => if r.isChildInherit then rs.insert r else rs) rs

end RouteSet

/-! ## Ancestor routes -/

namespace Rib

variable (s : Rib)

def ancestorRoutesFrom : (fuel : ℕ) → Option EntryPtr → RouteSet → RouteSet
  | 0, _, acc => acc
  | _, none, acc => acc
  | fuel + 1, some p, acc =>
    let acc := acc.insertChildInherit (s.entries p).routes
    if (s.entries p).hasCapture then acc
    else ancestorRoutesFrom fuel (s.entries p).parent acc

def getAncestorRoutes (entry : RibEntry) : RouteSet :=
  s.ancestorRoutesFrom entry.name.length entry.parent .empty

def getAncestorRoutesOfName (name : Name) : RouteSet :=
  s.ancestorRoutesFrom name.length (s.findParent name) .empty

def depth : ℕ := (s.rib.toList.map fun b => b.1.length).foldr max 0

end Rib

/-! ## The updater -/

/-- The lists of `FibUpdater`. -/
structure FibUpdater where
  batchFaceId : ℕ := 0
  updatesForBatchFaceId : List FibUpdate := []
  updatesForNonBatchFaceId : List FibUpdate := []
  inheritedRoutes : List RibUpdate := []
deriving DecidableEq

namespace FibUpdater

/-- Replace the update of the same next hop, or append. -/
def put (updates : List FibUpdate) (update : FibUpdate) : List FibUpdate :=
  if updates.any (·.sameTarget update) then
    updates.replaceF fun other => if other.sameTarget update then some update else none
  else updates ++ [update]

variable (u : FibUpdater)

def addFibUpdate (update : FibUpdate) : FibUpdater :=
  if update.faceId = u.batchFaceId then
    { u with updatesForBatchFaceId := put u.updatesForBatchFaceId update }
  else { u with updatesForNonBatchFaceId := put u.updatesForNonBatchFaceId update }

def addInheritedRoute (name : Name) (route : Route) : FibUpdater :=
  { u with inheritedRoutes := u.inheritedRoutes ++ [⟨.register, name, route⟩] }

def removeInheritedRoute (name : Name) (route : Route) : FibUpdater :=
  { u with inheritedRoutes := u.inheritedRoutes ++ [⟨.unregister, name, route⟩] }

def inherit (name : Name) (route : Route) : FibUpdater :=
  (u.addInheritedRoute name route).addFibUpdate
    (.createAddUpdate name route.faceId route.cost)

def disinherit (name : Name) (route : Route) : FibUpdater :=
  (u.removeInheritedRoute name route).addFibUpdate (.createRemoveUpdate name route.faceId)

def addInheritedRoutes (entry : RibEntry) (routesToAdd : RouteSet) : FibUpdater :=
  routesToAdd.toList.foldl (fun u route =>
    if entry.hasFaceId route.faceId then u else u.inherit entry.name route) u

def addInheritedRoutesExcept (name : Name) (routesToAdd : RouteSet) (ignore : Route) : FibUpdater :=
  routesToAdd.toList.foldl (fun u route =>
    if route.faceId = ignore.faceId then u else u.inherit name route) u

def removeInheritedRoutes (entry : RibEntry) (routesToRemove : RouteSet) : FibUpdater :=
  routesToRemove.toList.foldl (fun u route =>
    if entry.hasInheritedRoute route then u.disinherit entry.name route else u) u

/-- `traverseSubTree` over a list of entries. An entry with capture stops the sweep, and an entry
with a route that its children inherit stops it for the face of this route. -/
def traverseSubTrees (s : Rib) : (fuel : ℕ) → FibUpdater → List EntryPtr →
    (routesToAdd routesToRemove : RouteSet) → FibUpdater
  | 0, u, _, _, _ => u
  | fuel + 1, u, children, routesToAdd, routesToRemove =>
    children.foldl (fun u child =>
      let entry := s.entries child
      if entry.hasCapture then u
      else
        let routesToRemove := routesToRemove.filter fun f => ! entry.hasChildInheritOnFaceId f
        let routesToAdd := routesToAdd.filter fun f => ! entry.hasChildInheritOnFaceId f
        let u := u.removeInheritedRoutes entry routesToRemove
        let u := u.addInheritedRoutes entry routesToAdd
        traverseSubTrees s fuel u entry.children routesToAdd routesToRemove) u

def modifyChildrensInheritedRoutes (s : Rib) (children : List EntryPtr)
    (routesToAdd routesToRemove : RouteSet) : FibUpdater :=
  traverseSubTrees s (s.depth + 1) u children routesToAdd routesToRemove

/-! ### The cases -/

variable (s : Rib)

def createFibUpdatesForNewRibEntry (name : Name) (route : Route) (children : List EntryPtr) :
    FibUpdater :=
  let u := u.addFibUpdate (.createAddUpdate name route.faceId route.cost)
  let ancestorRoutes := s.getAncestorRoutesOfName name
  match route.isChildInherit, route.isRibCapture with
  | false, false => u.addInheritedRoutesExcept name ancestorRoutes route
  | true, true => u.modifyChildrensInheritedRoutes s children (.ofRoute route) ancestorRoutes
  | true, false =>
    let u := u.addInheritedRoutesExcept name ancestorRoutes route
    u.modifyChildrensInheritedRoutes s children
      ((ancestorRoutes.erase route.faceId).insert route) .empty
  | false, true => u.modifyChildrensInheritedRoutes s children .empty ancestorRoutes

def createFibUpdatesForNewRoute (entry : RibEntry) (route : Route) (captureWasTurnedOn : Bool) :
    FibUpdater :=
  let prevRoute := entry.getRouteWithLowestCostAndChildInheritByFaceId route.faceId
  let routesToAdd :=
    if route.isChildInherit && prevRoute.all fun prev => route.cost ≤ prev.cost then
      RouteSet.ofRoute route
    else .empty
  let ancestorRoutes := s.getAncestorRoutes entry
  let u := if captureWasTurnedOn then u.removeInheritedRoutes entry ancestorRoutes else u
  let u := u.modifyChildrensInheritedRoutes s entry.children routesToAdd
    (if captureWasTurnedOn then ancestorRoutes else .empty)
  let other := entry.getRouteWithLowestCostByFaceId route.faceId
  if other.all fun other => route.cost ≤ other.cost then
    u.addFibUpdate (.createAddUpdate entry.name route.faceId route.cost)
  else u

/-- The first part of `createFibUpdatesForUpdatedRoute`: the FIB update of the entry itself when the
cost has changed. -/
def updateOwnCost (entry : RibEntry) (route existingRoute : Route) : Option FibUpdater :=
  if route.cost = existingRoute.cost then some u
  else
    match entry.getRouteWithLowestCostByFaceId route.faceId with
    | none => none
    | some lowest =>
      if route.cost ≤ lowest.cost then
        some (u.addFibUpdate (.createAddUpdate entry.name route.faceId route.cost))
      else if existingRoute.cost < lowest.cost then
        match entry.getRouteWithLowestCostAndChildInheritByFaceId route.faceId with
        | none => none
        | some prev => some (u.addFibUpdate (.createAddUpdate entry.name prev.faceId prev.cost))
      else some u

def updateChildInherit (entry : RibEntry) (route existingRoute : Route) : FibUpdater :=
  let prevRoute := entry.getRouteWithLowestCostAndChildInheritByFaceId route.faceId
  if ! existingRoute.isChildInherit && route.isChildInherit then
    if prevRoute.all fun prev => route.cost ≤ prev.cost then
      u.modifyChildrensInheritedRoutes s entry.children (.ofRoute route) .empty
    else u
  else if existingRoute.isChildInherit && ! route.isChildInherit then
    let routesToAdd :=
      match prevRoute with
      | some prev => RouteSet.ofRoute prev
      | none =>
        match (s.getAncestorRoutes entry).find? route.faceId with
        | some ancestor => .ofRoute ancestor
        | none => .empty
    u.modifyChildrensInheritedRoutes s entry.children routesToAdd (.ofRoute route)
  else u

def updateCapture (entry : RibEntry) (route existingRoute : Route) : FibUpdater :=
  let ancestorRoutes := s.getAncestorRoutes entry
  if ! existingRoute.isRibCapture && route.isRibCapture then
    (u.removeInheritedRoutes entry ancestorRoutes).modifyChildrensInheritedRoutes s entry.children
      .empty ancestorRoutes
  else if existingRoute.isRibCapture && ! route.isRibCapture then
    (u.addInheritedRoutes entry ancestorRoutes).modifyChildrensInheritedRoutes s entry.children
      ancestorRoutes .empty
  else u

def createFibUpdatesForUpdatedRoute (entry : RibEntry) (route existingRoute : Route) :
    Option FibUpdater :=
  let prevRoute := entry.getRouteWithLowestCostAndChildInheritByFaceId route.faceId
  if route.flags = existingRoute.flags ∧ route.cost = existingRoute.cost then some u
  else
    match u.updateOwnCost entry route existingRoute with
    | none => none
    | some u =>
      if route.cost ≠ existingRoute.cost ∧ (prevRoute.all fun prev => route.cost ≤ prev.cost) ∧
          route.flags = existingRoute.flags ∧ route.isChildInherit then
        some (u.modifyChildrensInheritedRoutes s entry.children (.ofRoute route) .empty)
      else
        some ((u.updateChildInherit s entry route existingRoute).updateCapture s entry route
          existingRoute)

def createFibUpdatesForErasedRoute (entry : RibEntry) (route : Route) (captureWasTurnedOff : Bool) :
    FibUpdater :=
  let u := u.addFibUpdate (.createRemoveUpdate entry.name route.faceId)
  let ancestorRoutes := s.getAncestorRoutes entry
  let u :=
    if route.isRibCapture then
      let routesToRemove := if route.isChildInherit then RouteSet.ofRoute route else .empty
      if captureWasTurnedOff && ! entry.routes.isEmpty then
        (u.addInheritedRoutes entry ancestorRoutes).modifyChildrensInheritedRoutes s entry.children
          ancestorRoutes routesToRemove
      else u.modifyChildrensInheritedRoutes s entry.children .empty routesToRemove
    else if route.isChildInherit then
      u.modifyChildrensInheritedRoutes s entry.children
        (if entry.hasCapture then .empty else ancestorRoutes) (.ofRoute route)
    else u
  if ! entry.hasCapture && ! entry.routes.isEmpty then
    match ancestorRoutes.find? route.faceId with
    | some ancestor => u.inherit entry.name ancestor
    | none => u
  else u

def createFibUpdatesForErasedRibEntry (entry : RibEntry) : FibUpdater :=
  entry.inheritedRoutes.foldl (fun u route =>
    u.addFibUpdate (.createRemoveUpdate entry.name route.faceId)) u

def computeUpdatesForRegistration (name : Name) (route : Route) : Option FibUpdater :=
  match s.rib.find? name with
  | some p =>
    let entry := s.entries p
    match entry.findRoute route with
    | none =>
      some (u.createFibUpdatesForNewRoute s entry route (! entry.hasCapture && route.isRibCapture))
    | some existingRoute =>
      u.createFibUpdatesForUpdatedRoute s (entry.setRoute route) route existingRoute
  | none =>
    let parent := s.findParent name
    let children := (s.findDescendantsForNonInsertedName name).filter fun d =>
      (s.entries d).parent == parent
    some (u.createFibUpdatesForNewRibEntry s name route children)

def computeUpdatesForUnregistration (nth : NthElement) (name : Name) (route : Route) : FibUpdater :=
  match s.rib.find? name with
  | none => u
  | some p =>
    let entry := s.entries p
    match entry.findRoute route with
    | none => u
    | some existing =>
      let temp := entry.eraseRoute route
      let u := u.createFibUpdatesForErasedRoute s temp existing (entry.hasCapture && ! temp.hasCapture)
      let u :=
        match entry.getRouteWithSecondLowestCostByFaceId nth route.faceId with
        | some next => u.createFibUpdatesForNewRoute s temp next false
        | none => u
      if entry.routes.length = 1 then u.createFibUpdatesForErasedRibEntry entry else u

/-- `computeUpdates`, after the lists have been cleared. The FIB has dropped a removed face itself. -/
def computeUpdates (nth : NthElement) (update : RibUpdate) : Option FibUpdater :=
  let u : FibUpdater := { batchFaceId := update.route.faceId }
  match update.action with
  | .register => u.computeUpdatesForRegistration s update.name update.route
  | .unregister => some (u.computeUpdatesForUnregistration s nth update.name update.route)
  | .removeFace =>
    let u := u.computeUpdatesForUnregistration s nth update.name update.route
    some { u with updatesForBatchFaceId := [] }

end FibUpdater

end Ns3Ndn
