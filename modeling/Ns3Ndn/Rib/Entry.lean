import Ns3Ndn.Name

/-!
# Routes and RIB entries

The data of `NFD/daemon/rib/route.hpp` and `rib-entry.{hpp,cpp}`. A RIB entry keeps the routes of
one name, the routes it has inherited, its place in the name tree, and a hand-maintained count
of the routes whose `CAPTURE` flag is set. Entries refer to each other by pointer (`EntryPtr`).

* `RibEntry.insertRoute`, `setRoute`, `eraseRoute`: the edits of the route list;
* `RibEntry.lowestCost`, `NthElement`: the searches by cost.
-/

namespace Ns3Ndn

def routeFlagChildInherit : ℕ := 1

def routeFlagCapture : ℕ := 2

structure Route where
  faceId : ℕ := 0
  origin : ℕ := 0
  cost : ℕ := 0
  flags : ℕ := 0
  expires : Option ℕ := none
deriving DecidableEq

namespace Route

def isChildInherit (r : Route) : Bool := r.flags &&& routeFlagChildInherit != 0

def isRibCapture (r : Route) : Bool := r.flags &&& routeFlagCapture != 0

/-- `compareFaceIdAndOrigin`: the identity of a route within its entry. -/
def sameFaceIdAndOrigin (l r : Route) : Bool := l.faceId == r.faceId && l.origin == r.origin

theorem sameFaceIdAndOrigin_iff {l r : Route} :
    l.sameFaceIdAndOrigin r = true ↔ l.faceId = r.faceId ∧ l.origin = r.origin := by
  simp [sameFaceIdAndOrigin]

end Route

abbrev EntryPtr := ℕ

structure RibEntry where
  name : Name := []
  children : List EntryPtr := []
  parent : Option EntryPtr := none
  routes : List Route := []
  inheritedRoutes : List Route := []
  nRoutesWithCaptureSet : ℕ := 0
deriving DecidableEq

instance : Inhabited RibEntry := ⟨{}⟩

/-- `--n` on a 64-bit unsigned counter. -/
def wrapPred (n : ℕ) : ℕ := if n = 0 then 2 ^ 64 - 1 else n - 1

@[simp] theorem wrapPred_succ (n : ℕ) : wrapPred (n + 1) = n := by
  simp [wrapPred]

namespace RibEntry

variable (e : RibEntry)

def findRoute (route : Route) : Option Route := e.routes.find? (·.sameFaceIdAndOrigin route)

/-- Append the route unless one with the same face and origin exists. The counter cannot wrap
upwards, since every counted route occupies memory. -/
def insertRoute (route : Route) : RibEntry × Bool :=
  match e.findRoute route with
  | some _ => (e, false)
  | none =>
    ({ e with
      nRoutesWithCaptureSet :=
        if route.isRibCapture then e.nRoutesWithCaptureSet + 1 else e.nRoutesWithCaptureSet
      routes := e.routes ++ [route] }, true)

def setRoute (route : Route) : RibEntry :=
  { e with routes := e.routes.replaceF fun r =>
      if r.sameFaceIdAndOrigin route then some route else none }

def eraseRoute (route : Route) : RibEntry :=
  match e.findRoute route with
  | some r =>
    { e with
      nRoutesWithCaptureSet :=
        if r.isRibCapture then wrapPred e.nRoutesWithCaptureSet else e.nRoutesWithCaptureSet
      routes := e.routes.eraseP (·.sameFaceIdAndOrigin route) }
  | none => e

def hasFaceId (faceId : ℕ) : Bool := e.routes.any (·.faceId == faceId)

def addInheritedRoute (route : Route) : RibEntry :=
  { e with inheritedRoutes := e.inheritedRoutes ++ [route] }

def removeInheritedRoute (route : Route) : RibEntry :=
  { e with inheritedRoutes := e.inheritedRoutes.filter (·.faceId != route.faceId) }

def hasInheritedRoute (route : Route) : Bool := e.inheritedRoutes.any (·.faceId == route.faceId)

def hasCapture : Bool := 0 < e.nRoutesWithCaptureSet

def hasChildInheritOnFaceId (faceId : ℕ) : Bool :=
  e.routes.any fun r => r.faceId == faceId && r.isChildInherit

def lowestCost (p : Route → Bool) (routes : List Route) : Option Route :=
  routes.foldl (fun candidate route =>
    if p route then
      match candidate with
      | none => some route
      | some c => if route.cost < c.cost then some route else some c
    else candidate) none

def getRouteWithLowestCostByFaceId (faceId : ℕ) : Option Route :=
  lowestCost (fun r => r.faceId == faceId) e.routes

def getRouteWithLowestCostAndChildInheritByFaceId (faceId : ℕ) : Option Route :=
  lowestCost (fun r => r.faceId == faceId && r.isChildInherit) e.routes

end RibEntry

/-- What `std::nth_element(begin, begin + 1, end)` by cost leaves at position 1. The standard
fixes its rank in the cost order, not which of several equally cheap routes it is. -/
structure NthElement where
  at1 : List Route → Route
  mem : ∀ l : List Route, 2 ≤ l.length → at1 l ∈ l
  rank_lt : ∀ l : List Route, 2 ≤ l.length → (l.filter fun r => r.cost < (at1 l).cost).length ≤ 1
  rank_le : ∀ l : List Route, 2 ≤ l.length → 2 ≤ (l.filter fun r => r.cost ≤ (at1 l).cost).length

theorem insertionSort_getD_one {l : List Route} (hl : 2 ≤ l.length) :
    ∃ a b rest, l.Perm (a :: b :: rest) ∧ a.cost ≤ b.cost ∧ (∀ r ∈ rest, b.cost ≤ r.cost) ∧
      (l.insertionSort fun a b => a.cost ≤ b.cost).getD 1 {} = b := by
  have hperm := List.perm_insertionSort (fun a b : Route => a.cost ≤ b.cost) l
  have hsorted := List.pairwise_insertionSort (fun a b : Route => a.cost ≤ b.cost) l
  generalize l.insertionSort (fun a b => a.cost ≤ b.cost) = l' at hperm hsorted
  have hlen := hperm.length_eq
  match l', hperm, hsorted with
  | a :: b :: rest, hperm, hsorted =>
    obtain ⟨ha, hb⟩ := List.pairwise_cons.mp hsorted
    exact ⟨a, b, rest, hperm.symm, ha b List.mem_cons_self, (List.pairwise_cons.mp hb).1, rfl⟩
  | [_], _, _ | [], _, _ =>
    simp at hlen
    omega

def NthElement.sorting : NthElement where
  at1 l := (l.insertionSort fun a b => a.cost ≤ b.cost).getD 1 {}
  mem l hl := by
    obtain ⟨a, b, rest, hperm, -, -, hb⟩ := insertionSort_getD_one hl
    rw [hb]
    exact hperm.symm.subset (List.mem_cons_of_mem _ List.mem_cons_self)
  rank_lt l hl := by
    obtain ⟨a, b, rest, hperm, -, hrest, hb⟩ := insertionSort_getD_one hl
    have hnil : (rest.filter fun r => r.cost < b.cost) = [] :=
      List.filter_eq_nil_iff.mpr fun r hr => by simpa using hrest r hr
    rw [hb, (hperm.filter _).length_eq, List.filter_cons, List.filter_cons, hnil]
    split_ifs <;> simp_all
  rank_le l hl := by
    obtain ⟨a, b, rest, hperm, hab, -, hb⟩ := insertionSort_getD_one hl
    rw [hb, (hperm.filter _).length_eq]
    simp [hab]

def RibEntry.getRouteWithSecondLowestCostByFaceId (nth : NthElement) (e : RibEntry)
    (faceId : ℕ) : Option Route :=
  let found := e.routes.filter fun r => r.faceId == faceId
  if found.length < 2 then none else some (nth.at1 found)

namespace RibEntry

section Routes

variable {e : RibEntry} {route r : Route}

theorem findRoute_eq_none :
    e.findRoute route = none ↔ ∀ r ∈ e.routes, ¬ r.sameFaceIdAndOrigin route := by
  simp [findRoute]

/-- Where a route that was found stands, and what becomes of the list when it is overwritten or
erased. -/
theorem findRoute_split (h : e.findRoute route = some r) :
    r.sameFaceIdAndOrigin route ∧ ∃ l₁ l₂, e.routes = l₁ ++ r :: l₂ ∧
      (e.setRoute route).routes = l₁ ++ route :: l₂ ∧
      (e.eraseRoute route).routes = l₁ ++ l₂ := by
  obtain ⟨hr, l₁, l₂, hl, hl₁⟩ := List.find?_eq_some_iff_append.mp h
  refine ⟨hr, l₁, l₂, hl, ?_, ?_⟩
  · change e.routes.replaceF _ = _
    rw [hl]
    clear h hl
    induction l₁ with
    | nil => simp [hr]
    | cons x l₁ ih =>
      have hx : x.sameFaceIdAndOrigin route = false := by
        simpa using hl₁ x List.mem_cons_self
      simp [hx, ih fun y hy => hl₁ y (List.mem_cons_of_mem _ hy)]
  · rw [eraseRoute, h]
    change e.routes.eraseP _ = _
    rw [hl, List.eraseP_append_right _ fun x hx => by simpa using hl₁ x hx]
    simp [hr]

theorem insertRoute_routes (h : e.findRoute route = none) :
    (e.insertRoute route).1.routes = e.routes ++ [route] := by
  rw [insertRoute, h]

end Routes

variable {p : Route → Bool} {routes : List Route}

end RibEntry

end Ns3Ndn
