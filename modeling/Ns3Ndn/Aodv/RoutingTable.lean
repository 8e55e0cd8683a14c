import Mathlib
import Ns3Ndn.Internet.StaticRouting
import Ns3Ndn.Lib.OrdMap

/-!
# The routing table of AODV

`aodv/model/aodv-rtable.cc`: a map from destinations to entries. Every operation but `Update` first purges the table of the entries
whose time has passed.

* **`purge_purge`**: at one moment, a table is purged once.
-/

namespace Ns3Ndn.Aodv

open OrdLib Internet

abbrev Time := ℤ

def milliSeconds (ms : ℕ) : Time := ms * 1000000

abbrev NetDevice := ℕ

abbrev Ipv4Route := Internet.Ipv4Route (Option NetDevice)

/-- The order of `Ipv4Address` -/
instance uint32Order : LinearOrder UInt32 where
  le_refl := UInt32.le_refl
  le_trans _ _ _ := UInt32.le_trans
  le_antisymm _ _ := UInt32.le_antisymm
  le_total := UInt32.le_total
  lt_iff_le_not_ge a b := by
    rw [UInt32.not_le]
    exact ⟨fun h => ⟨UInt32.le_of_lt h, h⟩, fun h => h.2⟩
  toDecidableLE := inferInstance
  toDecidableLT := inferInstance
  toDecidableEq := inferInstance

instance lawfulUInt32 : LawfulBEq UInt32 := inferInstance

def unsetAddress : Ipv4Address := 0x66666666

/-- `RouteFlags` -/
inductive RouteFlags
  | VALID
  | INVALID
  | IN_SEARCH
  deriving DecidableEq, Repr

/-- `RoutingTableEntry`, with the local address of its interface. -/
structure RoutingTableEntry where
  validSeqNo : Bool
  seqNo : UInt32
  hops : UInt16
  lifeTime : Time
  ipv4Route : Ipv4Route
  iface : Ipv4Address
  flag : RouteFlags := .VALID
  precursorList : List Ipv4Address := []
  reqCount : UInt8 := 0
  deriving DecidableEq, Repr

namespace RoutingTableEntry

/-- The constructor. -/
def new (now : Time) (dev : Option NetDevice) (dst : Ipv4Address) (vSeqNo : Bool) (seqNo : UInt32) (iface : Ipv4Address)
    (hops : UInt16) (nextHop : Ipv4Address) (lifetime : Time) : RoutingTableEntry :=
  { validSeqNo := vSeqNo, seqNo, hops, lifeTime := lifetime + now, iface,
    ipv4Route := { dest := dst, gateway := nextHop, source := iface, outputDevice := dev } }

def default (now : Time) : RoutingTableEntry := new now none unsetAddress false 0 unsetAddress 0 unsetAddress now

variable (rt : RoutingTableEntry)

def getDestination : Ipv4Address := rt.ipv4Route.dest

def getNextHop : Ipv4Address := rt.ipv4Route.gateway

def getOutputDevice : Option NetDevice := rt.ipv4Route.outputDevice

def getLifeTime (now : Time) : Time := rt.lifeTime - now

def setLifeTime (now lt : Time) : RoutingTableEntry := { rt with lifeTime := lt + now }

def setFlag (flag : RouteFlags) : RoutingTableEntry := { rt with flag }

def setHop (hops : UInt16) : RoutingTableEntry := { rt with hops }

def setRreqCnt (n : UInt8) : RoutingTableEntry := { rt with reqCount := n }

def incrementRreqCnt : RoutingTableEntry := { rt with reqCount := rt.reqCount + 1 }

def insertPrecursor (id : Ipv4Address) : RoutingTableEntry :=
  if id ∈ rt.precursorList then rt else { rt with precursorList := rt.precursorList ++ [id] }

def getPrecursors (prec : List Ipv4Address) : List Ipv4Address :=
  rt.precursorList.foldl (fun prec i => if i ∈ prec then prec else prec ++ [i]) prec

def invalidate (now badLinkLifetime : Time) : RoutingTableEntry :=
  if rt.flag = .INVALID then rt
  else { rt with flag := .INVALID, reqCount := 0, lifeTime := badLinkLifetime + now }

def purge (now badLinkLifetime : Time) : Option RoutingTableEntry :=
  if rt.getLifeTime now < 0 then
    match rt.flag with
    | .INVALID => none
    | .VALID => some (rt.invalidate now badLinkLifetime)
    | .IN_SEARCH => some rt
  else some rt

def stored : RoutingTableEntry := if rt.flag ≠ .IN_SEARCH then rt.setRreqCnt 0 else rt

@[simp] theorem insertPrecursor_flag (id : Ipv4Address) : (rt.insertPrecursor id).flag = rt.flag := by
  unfold insertPrecursor
  split <;> rfl

@[simp] theorem insertPrecursor_reqCount (id : Ipv4Address) : (rt.insertPrecursor id).reqCount = rt.reqCount := by
  unfold insertPrecursor
  split <;> rfl

@[simp] theorem insertPrecursor_getDestination (id : Ipv4Address) : (rt.insertPrecursor id).getDestination = rt.getDestination := by
  unfold insertPrecursor
  split <;> rfl

theorem purge_of_inSearch {rt : RoutingTableEntry} {now badLinkLifetime : Time} (h : rt.flag = .IN_SEARCH) :
    rt.purge now badLinkLifetime = some rt := by
  simp [purge, h]

theorem purge_cases {rt rt' : RoutingTableEntry} {now badLinkLifetime : Time} (h : rt.purge now badLinkLifetime = some rt') :
    rt' = rt ∨ rt'.flag = .INVALID ∧ rt'.reqCount = 0 ∧ rt'.lifeTime = badLinkLifetime + now := by
  unfold purge at h
  split at h
  · cases hflag : rt.flag with
    | INVALID => simp [hflag] at h
    | VALID =>
      refine Or.inr ?_
      simp only [hflag, Option.some.injEq] at h
      subst h
      simp [invalidate, hflag]
    | IN_SEARCH =>
      simp only [hflag, Option.some.injEq] at h
      exact Or.inl h.symm
  · exact Or.inl (Option.some.inj h).symm

theorem ipv4Route_of_purge {rt rt' : RoutingTableEntry} {now badLinkLifetime : Time} (h : rt.purge now badLinkLifetime = some rt') :
    rt'.ipv4Route = rt.ipv4Route := by
  unfold purge invalidate at h
  split at h
  · cases hflag : rt.flag <;> simp [hflag] at h <;> rw [← h]
  · rw [Option.some.inj h]

theorem purge_of_purge {rt rt' : RoutingTableEntry} {now badLinkLifetime : Time} (hpos : 0 ≤ badLinkLifetime)
    (h : rt.purge now badLinkLifetime = some rt') : rt'.purge now badLinkLifetime = some rt' := by
  rcases purge_cases h with rfl | ⟨-, -, hlife⟩
  · exact h
  · rw [purge, if_neg]
    rw [getLifeTime, hlife, add_sub_cancel_right]
    exact not_lt.mpr hpos

end RoutingTableEntry

/-- `RoutingTable`. The lifetime of a bad link is the `m_deletePeriod` of the protocol's constructor. -/
structure RoutingTable where
  ipv4AddressEntry : OrdMap Ipv4Address RoutingTableEntry
  badLinkLifetime : Time
  badLinkLifetime_nonneg : 0 ≤ badLinkLifetime

attribute [ext] RoutingTable

namespace RoutingTable

variable (t : RoutingTable) (now : Time)

def find? (id : Ipv4Address) : Option RoutingTableEntry := t.ipv4AddressEntry.find? id

def purge : RoutingTable :=
  { t with ipv4AddressEntry := t.ipv4AddressEntry.filterMap fun _ rt => rt.purge now t.badLinkLifetime }

def lookupRoute (id : Ipv4Address) : RoutingTable × Option RoutingTableEntry := (t.purge now, (t.purge now).find? id)

/-- `AddRoute` -/
def addRoute (rt : RoutingTableEntry) : RoutingTable :=
  { t with ipv4AddressEntry := (t.purge now).ipv4AddressEntry.insertNew rt.getDestination rt.stored }

def update (rt : RoutingTableEntry) : RoutingTable :=
  { t with ipv4AddressEntry := t.ipv4AddressEntry.modify rt.getDestination fun _ => rt.stored }

def deleteRoute (dst : Ipv4Address) : RoutingTable := { t with ipv4AddressEntry := (t.purge now).ipv4AddressEntry.erase dst }

def getListOfDestinationWithNextHop (nextHop : Ipv4Address) : RoutingTable × OrdMap Ipv4Address UInt32 :=
  (t.purge now, (t.purge now).ipv4AddressEntry.filterMap fun _ rt => if rt.getNextHop = nextHop then some rt.seqNo else none)

def invalidateRoutesWithDst (unreachable : OrdMap Ipv4Address UInt32) : RoutingTable :=
  let invalidated := fun dst (rt : RoutingTableEntry) =>
    if (unreachable.find? dst).isSome ∧ rt.flag = .VALID then rt.invalidate now t.badLinkLifetime else rt
  { t with ipv4AddressEntry := (t.purge now).ipv4AddressEntry.filterMap fun dst rt => some (invalidated dst rt) }

/-! ## Entries -/

theorem find?_purge (id : Ipv4Address) :
    (t.purge now).find? id = (t.find? id).bind fun rt => rt.purge now t.badLinkLifetime :=
  t.ipv4AddressEntry.find?_filterMap _ id

/-- **At one moment, a table is purged once.** -/
theorem purge_purge : (t.purge now).purge now = t.purge now := by
  refine RoutingTable.ext (OrdMap.ext_find? fun id => ?_) rfl
  show ((t.purge now).purge now).find? id = (t.purge now).find? id
  rw [find?_purge, find?_purge]
  cases t.find? id with
  | none => rfl
  | some rt =>
    rw [Option.bind_some]
    cases h : rt.purge now t.badLinkLifetime with
    | none => rfl
    | some rt' => exact RoutingTableEntry.purge_of_purge t.badLinkLifetime_nonneg h

theorem find?_purge_inSearch {id : Ipv4Address} {rt : RoutingTableEntry} (h : rt.flag = .IN_SEARCH) :
    (t.purge now).find? id = some rt ↔ t.find? id = some rt := by
  rw [find?_purge, Option.bind_eq_some_iff]
  constructor
  · rintro ⟨rt', hfind, hpurge⟩
    rcases RoutingTableEntry.purge_cases hpurge with rfl | ⟨hflag, -⟩
    · exact hfind
    · rw [h] at hflag
      cases hflag
  · exact fun hfind => ⟨rt, hfind, RoutingTableEntry.purge_of_inSearch h⟩

theorem find?_addRoute (rt : RoutingTableEntry) (id : Ipv4Address) :
    (t.addRoute now rt).find? id = ((t.purge now).find? id).or (if rt.getDestination = id then some rt.stored else none) :=
  (t.purge now).ipv4AddressEntry.find?_insertNew rt.getDestination id rt.stored

theorem find?_update (rt : RoutingTableEntry) (id : Ipv4Address) :
    (t.update rt).find? id = if rt.getDestination = id then (t.find? id).map fun _ => rt.stored else t.find? id :=
  t.ipv4AddressEntry.find?_modify rt.getDestination id fun _ => rt.stored

theorem find?_deleteRoute (dst id : Ipv4Address) :
    (t.deleteRoute now dst).find? id = if dst = id then none else (t.purge now).find? id :=
  (t.purge now).ipv4AddressEntry.find?_erase dst id

theorem find?_getListOfDestinationWithNextHop (nextHop id : Ipv4Address) :
    (t.getListOfDestinationWithNextHop now nextHop).2.find? id =
      ((t.purge now).find? id).bind fun rt => if rt.getNextHop = nextHop then some rt.seqNo else none :=
  (t.purge now).ipv4AddressEntry.find?_filterMap _ id

theorem flag_of_invalidateRoutesWithDst {unreachable : OrdMap Ipv4Address UInt32} {id : Ipv4Address} {rt : RoutingTableEntry}
    (hlisted : (unreachable.find? id).isSome = true) (h : (t.invalidateRoutesWithDst now unreachable).find? id = some rt) :
    rt.flag ≠ .VALID := by
  have hfind := (t.purge now).ipv4AddressEntry.find?_filterMap (fun dst rt => some (if (unreachable.find? dst).isSome ∧
    rt.flag = .VALID then rt.invalidate now t.badLinkLifetime else rt)) id
  obtain ⟨rt', -, heq⟩ := Option.bind_eq_some_iff.mp (hfind.symm.trans h)
  rw [Option.some.injEq] at heq
  subst heq
  by_cases hvalid : rt'.flag = .VALID
  · rw [if_pos ⟨hlisted, hvalid⟩, RoutingTableEntry.invalidate, if_neg (by rw [hvalid]; decide)]
    exact RouteFlags.noConfusion
  · rwa [if_neg fun h => hvalid h.2]

end RoutingTable

end Ns3Ndn.Aodv
