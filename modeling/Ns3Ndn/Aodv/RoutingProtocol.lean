import Mathlib
import Ns3Ndn.Aodv.RequestQueue

/-!
# A node that runs AODV

`aodv/model/aodv-routing-protocol.cc`: packets without a route are deferred, route requests are sent in growing rings, and a reply or the last
retry empties the queue. Requests over the rate limit are scheduled again, and a timer for each destination repeats a request.

* `step`, `run`: a node from its start on, with its timers and scheduled calls in any order.
-/

namespace Ns3Ndn.Aodv

open OrdLib Internet

/-! ## The state -/

structure Attributes where
  rreqRetries : UInt32 := 2
  ttlStart : UInt16 := 1
  ttlIncrement : UInt16 := 2
  ttlThreshold : UInt16 := 7
  rreqRateLimit : UInt16 := 10
  activeRouteTimeout : Time := milliSeconds 3000
  netDiameter : UInt32 := 35
  pathDiscoveryTime : Time := milliSeconds 5600
  helloInterval : Time := milliSeconds 1000
  allowedHelloLoss : UInt32 := 2
  maxQueueLen : UInt32 := 64
  maxQueueTime : Time := milliSeconds 30000

structure Interface where
  device : NetDevice
  index : Int32
  localAddress : Ipv4Address
  broadcast : Ipv4Address

/-- What a node does. -/
inductive Event
  /-- `Enqueue` has accepted the entry. -/
  | accepted (e : QueueEntry)
  /-- The call `e.ucb (route, e.packet, header)`. -/
  | forwarded (e : QueueEntry) (route : Ipv4Route) (header : Ipv4Header)
  /-- The call `e.ecb (e.packet, e.header, ERROR_NOROUTETOHOST)`. -/
  | dropped (e : QueueEntry)
  /-- `SendPacketFromQueue (dst, _)` returns, with these packets for `dst` in the queue. -/
  | returned (dst : Ipv4Address) (waiting : List QueueEntry)
  /-- A route request is sent from every interface, as the first one of a search or not. -/
  | request (dst : Ipv4Address) (ttl : UInt16) (first : Bool)
  /-- A retry is scheduled with `1 << backoffFactor` times the net traversal time. -/
  | backoff (dst : Ipv4Address) (backoffFactor : UInt16)

def Event.isRequest : Event → Bool
  | request _ _ _ => true
  | backoff _ _ => true
  | _ => false

/-- What ends a program before its time: `NS_ABORT_MSG_UNLESS`, or the front of an empty vector. -/
inductive Failure
  | abort
  | emptyFront
  deriving DecidableEq

/-- `RoutingProtocol` -/
structure Node where
  attributes : Attributes
  interfaces : List Interface
  now : Time := 0
  routingTable : RoutingTable
  queue : RequestQueue
  /-- The `DeferredRouteOutputTag` of the packets. -/
  tag : ℕ → Option Int32 := fun _ => none
  rreqCount : UInt16 := 0
  /-- The scheduled calls of `SendRequest`. -/
  deferred : List Ipv4Address := []
  /-- The timers of `m_addressReqTimer` that are running. -/
  addressReqTimer : List Ipv4Address := []
  events : List Event := []

namespace Node

variable (n : Node)

/-- `Ipv4L3Protocol::GetInterfaceForDevice`, with the loopback device first. -/
def getInterfaceForDevice : Option NetDevice → Int32
  | none => -1
  | some dev => if dev = 0 then 0 else (n.interfaces.find? fun i => i.device == dev).elim (-1) Interface.index

/-- `IsMyOwnAddress` -/
def isMyOwnAddress (src : Ipv4Address) : Bool := n.interfaces.any fun i => i.localAddress == src

def lookupRoute (id : Ipv4Address) : Node × Option RoutingTableEntry :=
  let (routingTable, rt) := n.routingTable.lookupRoute n.now id
  ({ n with routingTable }, rt)

def addRoute (rt : RoutingTableEntry) : Node := { n with routingTable := n.routingTable.addRoute n.now rt }

def update (rt : RoutingTableEntry) : Node := { n with routingTable := n.routingTable.update rt }

def log (events : List Event) : Node := { n with events := n.events ++ events }

/-! ## Requests -/

def nextTtl (rt : RoutingTableEntry) : UInt16 :=
  let ttl := rt.hops + n.attributes.ttlIncrement
  if rt.flag ≠ .IN_SEARCH then
    -- `std::min<uint16_t>`
    if n.attributes.netDiameter.toUInt16 < ttl then n.attributes.netDiameter.toUInt16 else ttl
  else
    if n.attributes.ttlThreshold < ttl then n.attributes.netDiameter.toUInt16 else ttl

def searched (rt : RoutingTableEntry) (ttl : UInt16) : RoutingTableEntry :=
  let rt := if ttl.toUInt32 = n.attributes.netDiameter then rt.incrementRreqCnt else rt
  ((rt.setHop ttl).setFlag .IN_SEARCH).setLifeTime n.now n.attributes.pathDiscoveryTime

def scheduleRreqRetry (dst : Ipv4Address) : Except Failure Node :=
  let l := n.lookupRoute dst
  let rt := l.2.getD (.default n.now)
  let n := { l.1 with addressReqTimer := dst :: n.addressReqTimer.erase dst }
  if rt.hops.toUInt32 < n.attributes.netDiameter then .ok n
  else if 0 < rt.reqCount then .ok (n.log [.backoff dst (rt.reqCount.toUInt16 - 1)])
  else .error .abort

/-- The part of `SendRequest` that sends the request and keeps its TTL in the table. -/
def search (dst : Ipv4Address) : Node :=
  let l := n.lookupRoute dst
  match l.2 with
  | some rt =>
    let ttl := n.nextTtl rt
    (l.1.update (n.searched rt ttl)).log [.request dst ttl (rt.flag ≠ .IN_SEARCH)]
  | none =>
    let ttl := n.attributes.ttlStart
    let newEntry := RoutingTableEntry.new n.now none dst false 0 unsetAddress ttl unsetAddress n.attributes.pathDiscoveryTime
    let newEntry := if ttl.toUInt32 = n.attributes.netDiameter then newEntry.incrementRreqCnt else newEntry
    (l.1.addRoute (newEntry.setFlag .IN_SEARCH)).log [.request dst ttl true]

/-- `SendRequest` -/
def sendRequest (dst : Ipv4Address) : Except Failure Node :=
  if n.rreqCount = n.attributes.rreqRateLimit then .ok { n with deferred := n.deferred ++ [dst] }
  else (({ n with rreqCount := n.rreqCount + 1 } : Node).search dst).scheduleRreqRetry dst

/-- `RreqRateLimitTimerExpire` -/
def rreqRateLimitTimerExpire : Node := { n with rreqCount := 0 }

/-! ## Deferred packets -/

def deferredRouteOutput (p : Packet) (header : Ipv4Header) (ucb ecb : ℕ) : Except Failure Node :=
  match n.queue.enqueue n.now { packet := p, header, ucb, ecb, expire := n.now + n.now } with
  | none => .error .emptyFront
  | some (result, entry, queue, dropped) =>
    let n := ({ n with queue } : Node).log (dropped.map .dropped)
    if result then
      let l := (n.log [.accepted entry]).lookupRoute header.destination
      if l.2.all fun rt => rt.flag ≠ .IN_SEARCH then l.1.sendRequest header.destination else .ok l.1
    else .ok n

def mismatch (route : Ipv4Route) (p : Packet) : Bool :=
  (n.tag p.object).any fun oif => oif != -1 && oif != n.getInterfaceForDevice route.outputDevice

def sendLoop (dst : Ipv4Address) (route : Ipv4Route) : ℕ → Node → Option Node
  | 0, _ => none
  | fuel + 1, n =>
    match n.queue.dequeue n.now dst with
    | (none, queue, dropped) => some (({ n with queue } : Node).log (dropped.map .dropped))
    | (some e, queue, dropped) =>
      let differs := n.mismatch route e.packet
      let n := ({ n with queue, tag := Function.update n.tag e.packet.object none } : Node).log (dropped.map .dropped)
      if differs then some n
      else
        -- the TTL makes up for the one taken off by the loopback route
        let header := { e.header with source := route.source, ttl := e.header.ttl + 1 }
        sendLoop dst route fuel (n.log [.forwarded e route header])

theorem isSome_sendLoop {dst : Ipv4Address} {route : Ipv4Route} {fuel : ℕ} {n : Node} (hfuel : n.queue.queue.length < fuel) :
    (sendLoop dst route fuel n).isSome = true := by
  induction fuel generalizing n with
  | zero => exact absurd hfuel (Nat.not_lt_zero _)
  | succ fuel ih =>
    rw [sendLoop]
    cases hd : n.queue.dequeue n.now dst with
    | mk taken r =>
      obtain ⟨queue, dropped⟩ := r
      cases taken with
      | none => rfl
      | some e =>
        have hlt : (n.queue.dequeue n.now dst).2.1.queue.length < n.queue.queue.length :=
          RequestQueue.length_dequeue_some (congrArg Prod.fst hd)
        rw [hd] at hlt
        simp only
        split
        · rfl
        · exact ih (lt_of_lt_of_le hlt (Nat.lt_succ_iff.mp hfuel))

/-- `SendPacketFromQueue` -/
def sendPacketFromQueue (dst : Ipv4Address) (route : Ipv4Route) : Node :=
  let n := (sendLoop dst route (n.queue.queue.length + 1) n).get (isSome_sendLoop (Nat.lt_succ_self _))
  n.log [.returned dst (n.queue.queue.filter fun e => e.isFor dst)]

/-- The end of a search without a route: the packets of the destination are dropped. -/
def giveUp (dst : Ipv4Address) : Node :=
  let n := { n with addressReqTimer := n.addressReqTimer.erase dst, routingTable := n.routingTable.deleteRoute n.now dst }
  let d := n.queue.dropPacketWithDst n.now dst
  ({ n with queue := d.1 } : Node).log (d.2.map .dropped)

/-! ## Replies -/

/-- `RrepHeader` -/
structure RrepHeader where
  hopCount : UInt8
  dst : Ipv4Address
  dstSeqno : UInt32
  origin : Ipv4Address
  lifeTime : UInt32
  deriving DecidableEq, Repr

def updateRouteToNeighbor (sender : Ipv4Address) (receiver : Interface) : Node :=
  let l := n.lookupRoute sender
  match l.2 with
  | none =>
    l.1.addRoute (.new n.now (some receiver.device) sender false 0 receiver.localAddress 1 sender n.attributes.activeRouteTimeout)
  | some toNeighbor =>
    -- the longer lifetime of a known neighbor is set in a copy of its entry only
    if toNeighbor.validSeqNo ∧ toNeighbor.hops = 1 ∧ toNeighbor.getOutputDevice = some receiver.device then l.1
    else l.1.update (.new n.now (some receiver.device) sender false 0 receiver.localAddress 1 sender
      (max n.attributes.activeRouteTimeout (toNeighbor.getLifeTime n.now)))

def processHello (rrep : RrepHeader) (receiver : Interface) : Node :=
  let l := n.lookupRoute rrep.dst
  match l.2 with
  | none =>
    l.1.addRoute (.new n.now (some receiver.device) rrep.dst true rrep.dstSeqno receiver.localAddress 1 rrep.dst
      (milliSeconds rrep.lifeTime.toNat))
  | some toNeighbor =>
    let lifetime := max (n.attributes.allowedHelloLoss.toNat * n.attributes.helloInterval) (toNeighbor.getLifeTime n.now)
    l.1.update { (toNeighbor.setLifeTime n.now lifetime) with
                 seqNo := rrep.dstSeqno, validSeqNo := true, flag := .VALID, hops := 1, iface := receiver.localAddress,
                 ipv4Route := { toNeighbor.ipv4Route with outputDevice := some receiver.device, gateway := rrep.dst } }

def updates (toDst newEntry : RoutingTableEntry) : Bool :=
  ! toDst.validSeqNo ||
  0 < (newEntry.seqNo.toInt32 - toDst.seqNo.toInt32) ||
  newEntry.seqNo == toDst.seqNo && toDst.flag != .VALID ||
  newEntry.seqNo == toDst.seqNo && newEntry.hops < toDst.hops

/-- The precursors that a reply to another node adds to the entries of the way between the two. -/
def insertPrecursors (toDst toOrigin : RoutingTableEntry) : Node :=
  let n := n.update (toDst.insertPrecursor toOrigin.getNextHop)
  let l := n.lookupRoute toDst.getNextHop
  let n := l.1.update ((l.2.getD (.default n.now)).insertPrecursor toOrigin.getNextHop)
  let toOrigin := toOrigin.insertPrecursor toDst.getNextHop
  let l := (n.update toOrigin).lookupRoute toOrigin.getNextHop
  l.1.update ((l.2.getD (.default n.now)).insertPrecursor toDst.getNextHop)

def forwardReply (rrep : RrepHeader) : Node :=
  let l := n.lookupRoute rrep.origin
  match l.2 with
  | none => l.1
  | some toOrigin =>
    if toOrigin.flag = .IN_SEARCH then l.1
    else
      let toOrigin := toOrigin.setLifeTime n.now (max n.attributes.activeRouteTimeout (toOrigin.getLifeTime n.now))
      let l := (l.1.update toOrigin).lookupRoute rrep.dst
      match l.2 with
      | none => l.1
      | some toDst => if toDst.flag = .VALID then l.1.insertPrecursors toDst toOrigin else l.1

def replyEntry (rrep : RrepHeader) (receiver : Interface) (sender : Ipv4Address) : RoutingTableEntry :=
  let hop := rrep.hopCount + 1
  .new n.now (some receiver.device) rrep.dst true rrep.dstSeqno receiver.localAddress hop.toUInt16 sender
    (milliSeconds rrep.lifeTime.toNat)

def updateByReply (newEntry : RoutingTableEntry) : Node :=
  let l := n.lookupRoute newEntry.getDestination
  match l.2 with
  | none => l.1.addRoute newEntry
  | some toDst => if updates toDst newEntry then l.1.update newEntry else l.1

def endSearch (newEntry : RoutingTableEntry) : Node :=
  { n.update newEntry with addressReqTimer := n.addressReqTimer.erase newEntry.getDestination }

/-- `RecvReply` up to `SendPacketFromQueue`, with the arguments of that call if it is made. -/
def replied (rrep : RrepHeader) (receiver : Interface) (sender : Ipv4Address) : Node × Option (Ipv4Address × Ipv4Route) :=
  if rrep.dst = rrep.origin then (n.processHello rrep receiver, none)
  else
    let newEntry := n.replyEntry rrep receiver sender
    let toDst := (n.lookupRoute rrep.dst).2
    let n := n.updateByReply newEntry
    if n.isMyOwnAddress rrep.origin then
      let n := if toDst.any fun rt => rt.flag = .IN_SEARCH then n.endSearch newEntry else n
      let l := n.lookupRoute rrep.dst
      (l.1, some (rrep.dst, (l.2.getD (toDst.getD (.default n.now))).ipv4Route))
    else (n.forwardReply rrep, none)

/-- `RouteRequestTimerExpire` up to `SendPacketFromQueue`, with the arguments of that call if it is made. -/
def expired (dst : Ipv4Address) : Except Failure (Node × Option (Ipv4Address × Ipv4Route)) :=
  let l := n.lookupRoute dst
  let toDst := l.2.getD (.default n.now)
  if l.2.isSome ∧ toDst.flag = .VALID then .ok (l.1, some (dst, toDst.ipv4Route))
  else if toDst.reqCount.toUInt32 = n.attributes.rreqRetries then .ok (l.1.giveUp dst, none)
  else if toDst.flag = .IN_SEARCH then (l.1.sendRequest dst).map fun n => (n, none)
  else .ok (l.1.giveUp dst, none)

/-! ## Runs -/

/-- An input of the node. -/
inductive Step
  | wait (t : ℕ)
  /-- Packets are tagged by `RouteOutput`, and copied and untagged elsewhere. -/
  | setTag (object : ℕ) (oif : Option Int32)
  | setMaxQueueLen (len : UInt32)
  | setMaxQueueTime (t : Time)
  | deferredRouteOutput (p : Packet) (header : Ipv4Header) (ucb ecb : ℕ)
  /-- A scheduled call of `SendRequest`. -/
  | sendRequest (dst : Ipv4Address)
  | rreqRateLimitTimerExpire
  | routeRequestTimerExpire (dst : Ipv4Address)
  | recvReply (rrep : RrepHeader) (receiver : Interface) (sender : Ipv4Address)

/-- A step up to `SendPacketFromQueue`, with the arguments of that call if it is made. A timer that is not running does not expire, and a call
that is not scheduled is not made. -/
def act : Step → Except Failure (Node × Option (Ipv4Address × Ipv4Route))
  | .wait t => .ok ({ n with now := n.now + t }, none)
  | .setTag object oif => .ok ({ n with tag := Function.update n.tag object oif }, none)
  | .setMaxQueueLen len => .ok ({ n with queue := { n.queue with maxLen := len } }, none)
  | .setMaxQueueTime t => .ok ({ n with queue := { n.queue with queueTimeout := t } }, none)
  | .deferredRouteOutput p header ucb ecb => (n.deferredRouteOutput p header ucb ecb).map fun n => (n, none)
  | .sendRequest dst =>
    if dst ∈ n.deferred then
      (({ n with deferred := n.deferred.erase dst } : Node).sendRequest dst).map fun n => (n, none)
    else .ok (n, none)
  | .rreqRateLimitTimerExpire => .ok (n.rreqRateLimitTimerExpire, none)
  | .routeRequestTimerExpire dst =>
    if dst ∈ n.addressReqTimer then ({ n with addressReqTimer := n.addressReqTimer.erase dst } : Node).expired dst
    else .ok (n, none)
  | .recvReply rrep receiver sender => .ok ((n.updateRouteToNeighbor sender receiver).replied rrep receiver sender)

def step (s : Step) : Except Failure Node :=
  (n.act s).map fun (n, call) => match call with
    | none => n
    | some (dst, route) => n.sendPacketFromQueue dst route

def run (steps : List Step) : Except Failure Node := steps.foldlM step n

/-- `Simulator::GetMaximumSimulationTime` -/
def maximumSimulationTime : Time := 0x7fffffffffffffff

theorem lifetime_nonneg : 0 ≤ milliSeconds 15000 := by decide

/-- The node once `SetIpv4` and `NotifyInterfaceUp` have set up its routes, to itself and to the broadcast addresses. -/
def start (attributes : Attributes) (interfaces : List Interface) : Node :=
  let lo := RoutingTableEntry.new 0 (some 0) 0x7f000001 true 0 0x7f000001 1 0x7f000001 maximumSimulationTime
  let broadcasts := interfaces.map fun i =>
    RoutingTableEntry.new 0 (some i.device) i.broadcast true 0 i.localAddress 1 i.broadcast maximumSimulationTime
  { attributes, interfaces,
    routingTable := (lo :: broadcasts).foldl (fun t rt => t.addRoute 0 rt)
      { ipv4AddressEntry := OrdMap.empty, badLinkLifetime := milliSeconds 15000, badLinkLifetime_nonneg := lifetime_nonneg },
    queue := { maxLen := attributes.maxQueueLen, queueTimeout := attributes.maxQueueTime } }

section Loop

variable {n} {dst : Ipv4Address} {route : Ipv4Route} {fuel : ℕ} {queue : RequestQueue} {dropped : List QueueEntry}

def forward (n : Node) (e : QueueEntry) (route : Ipv4Route) (queue : RequestQueue) (dropped : List QueueEntry) : Node :=
  (({ n with queue, tag := Function.update n.tag e.packet.object none } : Node).log (dropped.map .dropped)).log
    [.forwarded e route { e.header with source := route.source, ttl := e.header.ttl + 1 }]

theorem sendLoop_of_none
    (hd : n.queue.dequeue n.now dst = (none, queue, dropped)) :
    sendLoop dst route (fuel + 1) n = some (({ n with queue } : Node).log (dropped.map .dropped)) := by
  rw [sendLoop, hd]

theorem sendLoop_of_mismatch {e : QueueEntry}
    (hd : n.queue.dequeue n.now dst = (some e, queue, dropped)) (hm : n.mismatch route e.packet = true) :
    sendLoop dst route (fuel + 1) n =
      some (({ n with queue, tag := Function.update n.tag e.packet.object none } : Node).log (dropped.map .dropped)) := by
  rw [sendLoop, hd]
  simp only [hm, if_true]

theorem sendLoop_of_match {e : QueueEntry}
    (hd : n.queue.dequeue n.now dst = (some e, queue, dropped)) (hm : n.mismatch route e.packet = false) :
    sendLoop dst route (fuel + 1) n = sendLoop dst route fuel (n.forward e route queue dropped) := by
  rw [sendLoop, hd]
  simp only [hm, Bool.false_eq_true, if_false]
  rfl

theorem sendPacketFromQueue_eq (n : Node) (dst : Ipv4Address) (route : Ipv4Route) :
    ∃ m, sendLoop dst route (n.queue.queue.length + 1) n = some m ∧
      n.sendPacketFromQueue dst route = m.log [.returned dst (m.queue.queue.filter fun e => e.isFor dst)] :=
  ⟨_, (Option.some_get _).symm, rfl⟩

end Loop

theorem run_append_singleton {n n' : Node} {steps : List Step} (s : Step) (h : n.run steps = .ok n') :
    n.run (steps ++ [s]) = n'.step s := by
  have happend : n.run (steps ++ [s]) = (n.run steps).bind fun n' => [s].foldlM step n' := List.foldlM_append
  rw [happend, h]
  exact bind_pure (n'.step s)

theorem run_append_error {n : Node} {steps : List Step} {e : Failure} (s : Step) (h : n.run steps = .error e) :
    n.run (steps ++ [s]) = .error e := by
  have happend : n.run (steps ++ [s]) = (n.run steps).bind fun n' => [s].foldlM step n' := List.foldlM_append
  rw [happend, h]
  rfl

end Node

end Ns3Ndn.Aodv
