import Mathlib

/-!
# Static routing

`internet/model/ipv4-static-routing.cc`: the route to a destination is searched in one pass over the table, which keeps the length of the
longest mask and the least metric seen so far. The pass ends at the first host route, and a later one with a lower metric is not seen.

* `lookupLoop_of_short`, `lookupLoop_of_host`: the pass, without and with a host route;
* **`rightRoute_iff`**: the lookups that are right.
-/

namespace Ns3Ndn.Internet

abbrev Ipv4Address := UInt32

abbrev Ipv4Mask := UInt32

namespace Ipv4Mask

def getOnes : Ipv4Mask := 0xffffffff

def getZero : Ipv4Mask := 0

/-- `IsMatch` -/
def isMatch (mask : Ipv4Mask) (a b : Ipv4Address) : Bool := a &&& mask == b &&& mask

def prefixLoop : ℕ → Ipv4Mask → ℕ
  | 0, _ => 0
  | fuel + 1, mask => if mask ≠ 0 then prefixLoop fuel (mask <<< 1) + 1 else 0

/-- `GetPrefixLength`: nothing is left of a mask after 32 shifts. -/
def getPrefixLength (mask : Ipv4Mask) : ℕ := prefixLoop 32 mask

theorem prefixLoop_le (fuel : ℕ) (mask : Ipv4Mask) : prefixLoop fuel mask ≤ fuel := by
  induction fuel generalizing mask with
  | zero => exact le_rfl
  | succ fuel ih =>
    rw [prefixLoop]
    split_ifs
    · exact Nat.succ_le_succ (ih _)
    · exact Nat.zero_le _

theorem getPrefixLength_le (mask : Ipv4Mask) : mask.getPrefixLength ≤ 32 := prefixLoop_le 32 mask

end Ipv4Mask

/-- `IsLocalMulticast`: 224.0.0.0/24 -/
def Ipv4Address.isLocalMulticast (a : Ipv4Address) : Bool := a &&& 0xffffff00 == 0xe0000000

structure Ipv4RoutingTableEntry where
  dest : Ipv4Address
  destNetworkMask : Ipv4Mask
  gateway : Ipv4Address := 0
  interface : UInt32
  deriving DecidableEq, Repr

abbrev NetworkRoute := Ipv4RoutingTableEntry × UInt32

structure Ipv4Route (Device : Type) where
  dest : Ipv4Address
  source : Ipv4Address
  gateway : Ipv4Address
  outputDevice : Device
  deriving DecidableEq, Repr

/-- What `m_ipv4` answers about its interfaces. -/
structure Ipv4 (Device : Type) where
  getNetDevice : UInt32 → Device
  sourceAddressSelection : UInt32 → Ipv4Address → Ipv4Address
  /-- `GetAddress (GetInterfaceForDevice (oif), 0).GetLocal ()` -/
  localAddress : Device → Ipv4Address

/-! ## The table -/

def lookupRoute (routes : List NetworkRoute) (route : Ipv4RoutingTableEntry) (metric : UInt32) : Bool :=
  routes.any fun j => j.1.dest == route.dest && j.1.destNetworkMask == route.destNetworkMask && j.1.gateway == route.gateway &&
    j.1.interface == route.interface && j.2 == metric

def addNetworkRouteTo (routes : List NetworkRoute) (network : Ipv4Address) (networkMask : Ipv4Mask) (nextHop : Ipv4Address)
    (interface metric : UInt32) : List NetworkRoute :=
  let route := { dest := network, destNetworkMask := networkMask, gateway := nextHop, interface := interface }
  if lookupRoute routes route metric then routes else routes ++ [(route, metric)]

/-- `AddHostRouteTo` -/
def addHostRouteTo (routes : List NetworkRoute) (dest nextHop : Ipv4Address) (interface metric : UInt32) : List NetworkRoute :=
  addNetworkRouteTo routes dest Ipv4Mask.getOnes nextHop interface metric

/-- `SetDefaultRoute` -/
def setDefaultRoute (routes : List NetworkRoute) (nextHop : Ipv4Address) (interface metric : UInt32) : List NetworkRoute :=
  addNetworkRouteTo routes 0 Ipv4Mask.getZero nextHop interface metric

inductive RouteCall where
  | addNetworkRouteTo (network : Ipv4Address) (networkMask : Ipv4Mask) (nextHop : Option Ipv4Address) (interface metric : UInt32)
  | addHostRouteTo (dest : Ipv4Address) (nextHop : Option Ipv4Address) (interface metric : UInt32)
  | setDefaultRoute (nextHop : Ipv4Address) (interface metric : UInt32)

def RouteCall.apply (routes : List NetworkRoute) : RouteCall → List NetworkRoute
  | .addNetworkRouteTo network networkMask nextHop interface metric =>
    Internet.addNetworkRouteTo routes network networkMask (nextHop.getD 0) interface metric
  | .addHostRouteTo dest nextHop interface metric => Internet.addHostRouteTo routes dest (nextHop.getD 0) interface metric
  | .setDefaultRoute nextHop interface metric => Internet.setDefaultRoute routes nextHop interface metric

def networkRoutes (calls : List RouteCall) : List NetworkRoute := calls.foldl RouteCall.apply []

/-! ## The search -/

section Search

variable {Device : Type} [DecidableEq Device] (ipv4 : Ipv4 Device) (dest : Ipv4Address) (oif : Option Device)

/-- The variables of `LookupStatic`. -/
structure RouteSearch (Device : Type) where
  rtentry : Option (Ipv4Route Device) := none
  longestMask : ℕ := 0
  shortestMetric : UInt32 := 0xffffffff

def routeOf (j : Ipv4RoutingTableEntry) : Ipv4Route Device where
  dest := j.dest
  source := ipv4.sourceAddressSelection j.interface j.dest
  gateway := j.gateway
  outputDevice := ipv4.getNetDevice j.interface

def lookupLoop : RouteSearch Device → List NetworkRoute → RouteSearch Device
  | s, [] => s
  | s, i :: rest =>
    let j := i.1
    let metric := i.2
    let masklen := j.destNetworkMask.getPrefixLength
    if j.destNetworkMask.isMatch dest j.dest then
      if oif.any fun oif => oif ≠ ipv4.getNetDevice j.interface then lookupLoop s rest  -- Not on requested interface
      else if masklen < s.longestMask then lookupLoop s rest
      else
        let s := if masklen > s.longestMask then { s with shortestMetric := 0xffffffff } else s
        let s := { s with longestMask := masklen }
        if metric > s.shortestMetric then lookupLoop s rest
        else
          let s := { s with shortestMetric := metric, rtentry := some (routeOf ipv4 j) }
          if masklen = 32 then s else lookupLoop s rest
    else lookupLoop s rest

/-- `LookupStatic`: a route or a null pointer, and `none` when the assertion on `oif` fails. -/
def lookupStatic (routes : List NetworkRoute) : Option (Option (Ipv4Route Device)) :=
  if dest.isLocalMulticast then
    oif.map fun oif => some { dest := dest, source := ipv4.localAddress oif, gateway := 0, outputDevice := oif }
  else some (lookupLoop ipv4 dest oif {} routes).rtentry

/-! ## What a lookup is for -/

/-- An entry that matches the destination, on the device if one is given. -/
def applies (i : NetworkRoute) : Bool :=
  i.1.destNetworkMask.isMatch dest i.1.dest && oif.all fun oif => oif = ipv4.getNetDevice i.1.interface

def prefixLength (i : NetworkRoute) : ℕ := i.1.destNetworkMask.getPrefixLength

/-- **The best entry**: the longest prefix, and the least metric with this length. -/
structure Best (l : List NetworkRoute) (e : NetworkRoute) : Prop where
  mem : e ∈ l
  longest : ∀ i ∈ l, prefixLength i ≤ prefixLength e
  cheapest : ∀ i ∈ l, prefixLength i = prefixLength e → e.2 ≤ i.2

def matching (routes : List NetworkRoute) : List NetworkRoute := routes.filter (applies ipv4 dest oif)

/-- **The lookup is right**: it gives a route when some entry matches, and then that of a best one. -/
def RightRoute (routes : List NetworkRoute) : Prop :=
  ∃ r, lookupStatic ipv4 dest oif routes = some r ∧ (r.isSome ↔ ∃ i ∈ routes, applies ipv4 dest oif i) ∧
    ∀ route, r = some route → ∃ e, Best (matching ipv4 dest oif routes) e ∧ route = routeOf ipv4 e.1

/-- **The condition**: the first host route that matches leads where one with the least metric does. -/
def FirstHostRouteServes (routes : List NetworkRoute) : Prop :=
  ∀ e, (matching ipv4 dest oif routes).find? (fun i => prefixLength i = 32) = some e →
    ∃ e' ∈ matching ipv4 dest oif routes, prefixLength e' = 32 ∧
      (∀ i ∈ matching ipv4 dest oif routes, prefixLength i = 32 → e'.2 ≤ i.2) ∧ routeOf ipv4 e.1 = routeOf ipv4 e'.1

/-! ## The pass -/

variable {ipv4 dest oif} {s : RouteSearch Device} {routes seen rest : List NetworkRoute} {i e : NetworkRoute}

theorem prefixLength_le (i : NetworkRoute) : prefixLength i ≤ 32 := Ipv4Mask.getPrefixLength_le _

theorem lookupLoop_matching (s : RouteSearch Device) (routes : List NetworkRoute) :
    lookupLoop ipv4 dest oif s routes = lookupLoop ipv4 dest oif s (matching ipv4 dest oif routes) := by
  induction routes generalizing s with
  | nil => rfl
  | cons i rest ih =>
    by_cases happlies : applies ipv4 dest oif i = true
    · have hcons : matching ipv4 dest oif (i :: rest) = i :: matching ipv4 dest oif rest := List.filter_cons_of_pos happlies
      rw [hcons, lookupLoop, lookupLoop]
      simp only [ih]
    · have hcons : matching ipv4 dest oif (i :: rest) = matching ipv4 dest oif rest := List.filter_cons_of_neg happlies
      rw [hcons, lookupLoop]
      by_cases hmatch : i.1.destNetworkMask.isMatch dest i.1.dest = true
      · have hdevice : (oif.any fun oif => oif ≠ ipv4.getNetDevice i.1.interface) = true := by
          rw [applies, hmatch, Bool.true_and] at happlies
          cases oif with
          | none => exact absurd rfl happlies
          | some oif => simpa using happlies
        rw [if_pos hmatch, if_pos hdevice]
        exact ih s
      · rw [if_neg hmatch]
        exact ih s

theorem lookupLoop_cons (happlies : applies ipv4 dest oif i = true) :
    lookupLoop ipv4 dest oif s (i :: rest) =
      if prefixLength i < s.longestMask then lookupLoop ipv4 dest oif s rest
      else if prefixLength i = s.longestMask ∧ s.shortestMetric < i.2 then lookupLoop ipv4 dest oif s rest
      else if prefixLength i = 32 then ⟨some (routeOf ipv4 i.1), prefixLength i, i.2⟩
      else lookupLoop ipv4 dest oif ⟨some (routeOf ipv4 i.1), prefixLength i, i.2⟩ rest := by
  rw [applies, Bool.and_eq_true] at happlies
  have hdevice : ¬ (oif.any fun oif => oif ≠ ipv4.getNetDevice i.1.interface) = true := by
    cases oif with
    | none => exact Bool.false_ne_true
    | some oif => simpa using happlies.2
  rw [lookupLoop, if_pos happlies.1, if_neg hdevice]
  rcases lt_trichotomy (prefixLength i) s.longestMask with hlt | heq | hgt
  · exact (if_pos hlt).trans (if_pos hlt).symm
  · have hlt : ¬ i.1.destNetworkMask.getPrefixLength < s.longestMask := heq.ge.not_gt
    have hgt : ¬ i.1.destNetworkMask.getPrefixLength > s.longestMask := heq.le.not_gt
    rw [if_neg hlt, if_neg heq.ge.not_gt]
    simp only [if_neg hgt, heq, true_and]
    by_cases hmetric : s.shortestMetric < i.2
    · have hsame : i.1.destNetworkMask.getPrefixLength = s.longestMask := heq
      rw [if_pos hmetric, if_pos hmetric, hsame]
    · rw [if_neg hmetric, if_neg hmetric]
      simp only [← heq]
      rfl
  · have hlt : ¬ i.1.destNetworkMask.getPrefixLength < s.longestMask := hgt.not_gt
    have hmax : ¬ i.2 > 0xffffffff := UInt32.not_lt.mpr (UInt32.le_iff_toNat_le.mpr (Nat.le_of_lt_succ i.2.toNat_lt))
    have hreset : ¬ (prefixLength i = s.longestMask ∧ s.shortestMetric < i.2) := fun h => hgt.ne' h.1
    rw [if_neg hlt, if_neg hgt.not_gt, if_neg hreset]
    simp only [if_pos (show i.1.destNetworkMask.getPrefixLength > s.longestMask from hgt), if_neg hmax]
    rfl

def Searched (ipv4 : Ipv4 Device) (seen : List NetworkRoute) (s : RouteSearch Device) : Prop :=
  (seen = [] ∧ s = {}) ∨
    ∃ e, Best seen e ∧ s = ⟨some (routeOf ipv4 e.1), prefixLength e, e.2⟩

/-- **The pass without a host route** ends with the best entry. -/
theorem lookupLoop_of_short (happlies : ∀ i ∈ rest, applies ipv4 dest oif i = true) (hshort : ∀ i ∈ rest, prefixLength i ≠ 32)
    (hs : Searched ipv4 seen s) : Searched ipv4 (seen ++ rest) (lookupLoop ipv4 dest oif s rest) := by
  induction rest generalizing seen s with
  | nil => rwa [List.append_nil, lookupLoop]
  | cons i rest ih =>
    rw [List.append_cons, lookupLoop_cons (happlies i List.mem_cons_self)]
    have happlies' : ∀ k ∈ rest, applies ipv4 dest oif k = true := fun k hk => happlies k (List.mem_cons_of_mem i hk)
    have hshort' : ∀ k ∈ rest, prefixLength k ≠ 32 := fun k hk => hshort k (List.mem_cons_of_mem i hk)
    rw [if_neg (hshort i List.mem_cons_self)]
    have htake : (∀ k ∈ seen, prefixLength k ≤ prefixLength i ∧ (prefixLength k = prefixLength i → i.2 ≤ k.2)) →
        Searched ipv4 (seen ++ [i]) ⟨some (routeOf ipv4 i.1), prefixLength i, i.2⟩ := by
      intro hbest
      refine .inr ⟨i, ⟨List.mem_append_right _ List.mem_cons_self, fun k hk => ?_, fun k hk hsame => ?_⟩, rfl⟩
      · rcases List.mem_append.mp hk with hk | hk
        · exact (hbest k hk).1
        · rw [List.mem_singleton.mp hk]
      · rcases List.mem_append.mp hk with hk | hk
        · exact (hbest k hk).2 hsame
        · rw [List.mem_singleton.mp hk]
          exact UInt32.le_refl i.2
    rcases hs with ⟨rfl, rfl⟩ | ⟨e, hbest, rfl⟩
    · have hmax : ¬ (0xffffffff : UInt32) < i.2 := UInt32.not_lt.mpr (UInt32.le_iff_toNat_le.mpr (Nat.le_of_lt_succ i.2.toNat_lt))
      rw [if_neg (Nat.not_lt_zero _), if_neg fun h => hmax h.2]
      exact ih happlies' hshort' (htake fun k hk => absurd hk List.not_mem_nil)
    · have hkeep : (prefixLength i ≤ prefixLength e ∧ (prefixLength i = prefixLength e → e.2 ≤ i.2)) →
          Searched ipv4 (seen ++ [i]) ⟨some (routeOf ipv4 e.1), prefixLength e, e.2⟩ := by
        intro hle
        refine .inr ⟨e, ⟨List.mem_append_left _ hbest.mem, fun k hk => ?_, fun k hk hsame => ?_⟩, rfl⟩
        · rcases List.mem_append.mp hk with hk | hk
          · exact hbest.longest k hk
          · rw [List.mem_singleton.mp hk]
            exact hle.1
        · rcases List.mem_append.mp hk with hk | hk
          · exact hbest.cheapest k hk hsame
          · rw [List.mem_singleton.mp hk] at hsame ⊢
            exact hle.2 hsame
      dsimp only
      split_ifs with hlt hmetric
      · exact ih happlies' hshort' (hkeep ⟨hlt.le, fun hsame => absurd hsame hlt.ne⟩)
      · exact ih happlies' hshort' (hkeep ⟨hmetric.1.le, fun _ => UInt32.le_of_lt hmetric.2⟩)
      · refine ih happlies' hshort' (htake fun k hk => ⟨(hbest.longest k hk).trans (not_lt.mp hlt), fun hsame => ?_⟩)
        have hlength : prefixLength i = prefixLength e := (hsame ▸ hbest.longest k hk).antisymm (not_lt.mp hlt)
        have hle : i.2 ≤ e.2 := UInt32.not_lt.mp fun h => hmetric ⟨hlength, h⟩
        exact UInt32.le_trans hle (hbest.cheapest k hk (hsame.trans hlength))

/-- **The pass ends at the first host route.** -/
theorem lookupLoop_of_host (happlies : ∀ i ∈ rest, applies ipv4 dest oif i = true) (hs : s.longestMask < 32)
    (hfind : rest.find? (fun i => prefixLength i = 32) = some e) :
    (lookupLoop ipv4 dest oif s rest).rtentry = some (routeOf ipv4 e.1) := by
  induction rest generalizing s with
  | nil => exact absurd hfind (by simp)
  | cons i rest ih =>
    have happlies' : ∀ k ∈ rest, applies ipv4 dest oif k = true := fun k hk => happlies k (List.mem_cons_of_mem i hk)
    rw [lookupLoop_cons (happlies i List.mem_cons_self)]
    by_cases hhost : prefixLength i = 32
    · obtain rfl : i = e := Option.some_inj.mp ((List.find?_cons_of_pos (by simpa using hhost)).symm.trans hfind)
      rw [hhost, if_neg hs.not_gt, if_neg fun h => hs.ne' h.1, if_pos rfl]
    · rw [List.find?_cons_of_neg (by simpa using hhost)] at hfind
      rw [if_neg hhost]
      split_ifs with hlt hmetric
      · exact ih happlies' hs hfind
      · exact ih happlies' hs hfind
      · exact ih happlies' (lt_of_le_of_ne (prefixLength_le i) hhost) hfind

theorem best_iff_of_host {l : List NetworkRoute} (he : e ∈ l) (hhost : prefixLength e = 32) {e' : NetworkRoute} :
    Best l e' ↔ e' ∈ l ∧ prefixLength e' = 32 ∧ ∀ i ∈ l, prefixLength i = 32 → e'.2 ≤ i.2 := by
  constructor
  · intro h
    have hlength : prefixLength e' = 32 := (prefixLength_le e').antisymm (hhost ▸ h.longest e he)
    exact ⟨h.mem, hlength, fun i hi hi' => h.cheapest i hi (hi'.trans hlength.symm)⟩
  · rintro ⟨hmem, hlength, hleast⟩
    exact ⟨hmem, fun i _ => hlength ▸ prefixLength_le i, fun i hi hsame => hleast i hi (hsame.trans hlength)⟩

theorem mem_matching : i ∈ matching ipv4 dest oif routes ↔ i ∈ routes ∧ applies ipv4 dest oif i = true := List.mem_filter

/-- **The lookups that are right**: the first host route that matches is as good as any other. -/
theorem rightRoute_iff (ipv4 : Ipv4 Device) (calls : List RouteCall) (dest : Ipv4Address) (oif : Option Device)
    (hdest : dest.isLocalMulticast = false) :
    RightRoute ipv4 dest oif (networkRoutes calls) ↔ FirstHostRouteServes ipv4 dest oif (networkRoutes calls) := by
  generalize networkRoutes calls = routes
  have hlookup : lookupStatic ipv4 dest oif routes = some (lookupLoop ipv4 dest oif {} (matching ipv4 dest oif routes)).rtentry := by
    rw [lookupStatic, if_neg (by rw [hdest]; exact Bool.false_ne_true), lookupLoop_matching]
  have happlies : ∀ i ∈ matching ipv4 dest oif routes, applies ipv4 dest oif i = true := fun i hi => (mem_matching.mp hi).2
  have hexists : (∃ i ∈ routes, applies ipv4 dest oif i = true) ↔ ∃ i, i ∈ matching ipv4 dest oif routes :=
    exists_congr fun i => mem_matching.symm
  unfold RightRoute FirstHostRouteServes
  simp only [hlookup, Option.some_inj, exists_eq_left', hexists]
  generalize matching ipv4 dest oif routes = l at happlies ⊢
  cases hfind : l.find? fun i => prefixLength i = 32 with
  | none =>
    have hshort : ∀ i ∈ l, prefixLength i ≠ 32 := by simpa using hfind
    refine iff_of_true ?_ fun e he => absurd he (by simp)
    rcases lookupLoop_of_short happlies hshort (show Searched ipv4 [] {} from .inl ⟨rfl, rfl⟩) with ⟨hnil, hs⟩ | ⟨e, hbest, hs⟩
    · rw [List.nil_append] at hnil
      rw [hs, hnil]
      simp
    · rw [List.nil_append] at hbest
      rw [hs]
      exact ⟨iff_of_true rfl ⟨e, hbest.mem⟩, fun route hroute => ⟨e, hbest, (Option.some_inj.mp hroute).symm⟩⟩
  | some e =>
    have hmem : e ∈ l := List.mem_of_find?_eq_some hfind
    have hhost : prefixLength e = 32 := by simpa using List.find?_some hfind
    rw [lookupLoop_of_host happlies (Nat.zero_lt_succ 31) hfind]
    simp only [Option.isSome_some, true_iff, Option.some_inj, forall_eq', best_iff_of_host hmem hhost]
    constructor
    · rintro ⟨-, e', ⟨he', hlength, hleast⟩, hroute⟩
      exact ⟨e', he', hlength, hleast, hroute⟩
    · rintro ⟨e', he', hlength, hleast, hroute⟩
      exact ⟨⟨e, hmem⟩, e', ⟨he', hlength, hleast⟩, hroute⟩

end Search

/-! ## Two host routes -/

def numberedInterfaces : Ipv4 UInt32 where
  getNetDevice := id
  sourceAddressSelection := fun interface _ => 0x0a000001 + interface
  localAddress := fun oif => 0x0a000001 + oif

def twoHostRoutes : List RouteCall :=
  [.setDefaultRoute 0x0a000102 1 0, .addHostRouteTo 0x0a010101 (some 0x0a000202) 2 5, .addHostRouteTo 0x0a010101 (some 0x0a000302) 3 1]

theorem rightRoute_iff_twoHostRoutes :
    RightRoute numberedInterfaces 0x0a010102 none (networkRoutes twoHostRoutes) ↔
      FirstHostRouteServes numberedInterfaces 0x0a010102 none (networkRoutes twoHostRoutes) :=
  rightRoute_iff numberedInterfaces twoHostRoutes 0x0a010102 none (by decide)

/-- The route with the greater metric is found. -/
theorem not_rightRoute_twoHostRoutes :
    ¬ ∀ (ipv4 : Ipv4 UInt32) (calls : List RouteCall) (dest : Ipv4Address) (oif : Option UInt32), dest.isLocalMulticast = false →
      RightRoute ipv4 dest oif (networkRoutes calls) := by
  intro h
  obtain ⟨r, hr, -, hbest⟩ := h numberedInterfaces twoHostRoutes 0x0a010101 none (by decide)
  have hfound : lookupStatic numberedInterfaces 0x0a010101 none (networkRoutes twoHostRoutes) =
      some (some ⟨0x0a010101, 0x0a000003, 0x0a000202, 2⟩) := by decide
  obtain rfl := Option.some_inj.mp (hfound.symm.trans hr)
  obtain ⟨e, he, hroute⟩ := hbest _ rfl
  have hmatching : matching numberedInterfaces 0x0a010101 none (networkRoutes twoHostRoutes) =
      [(⟨0, 0, 0x0a000102, 1⟩, 0), (⟨0x0a010101, 0xffffffff, 0x0a000202, 2⟩, 5), (⟨0x0a010101, 0xffffffff, 0x0a000302, 3⟩, 1)] := by
    decide
  rw [hmatching] at he
  have hmem := he.mem
  simp only [List.mem_cons, List.not_mem_nil, or_false] at hmem
  rcases hmem with rfl | rfl | rfl
  · exact absurd (congrArg Ipv4Route.outputDevice hroute) (by decide)
  · exact absurd (he.cheapest (⟨0x0a010101, 0xffffffff, 0x0a000302, 3⟩, 1) (by simp) rfl) (by decide)
  · exact absurd (congrArg Ipv4Route.outputDevice hroute) (by decide)

end Ns3Ndn.Internet
