import Mathlib
import Ns3Ndn.Aodv.RoutingProtocol
import Ns3Ndn.Lib.Run

/-!
# Route discovery

A search for a route is to end: `RouteRequestTimerExpire` gives it up when the counter of its requests with the largest TTL is `RreqRetries`. The
test is an equality, and a scheduled `SendRequest` does not make it: requests that the rate limit has put off raise the counter past the limit,
where no timer finds it again. The counter has one byte.

* **`bounded_iff`**: the runs in which the searches end.
-/

namespace Ns3Ndn.Aodv

open OrdLib RunLib Internet

namespace Event

def requestOf : Event → Option (Ipv4Address × UInt16 × Bool)
  | request dst ttl first => some (dst, ttl, first)
  | _ => none

def backoffOf : Event → Option UInt16
  | backoff _ factor => some factor
  | _ => none

end Event

structure Attributes.Ordered (a : Attributes) : Prop where
  start_le : a.ttlStart ≤ a.ttlThreshold
  threshold_lt : a.ttlThreshold.toUInt32 < a.netDiameter
  retries_pos : 1 ≤ a.rreqRetries

theorem Attributes.Ordered.toNat_lt {a : Attributes} (h : a.Ordered) : a.ttlThreshold.toNat < a.netDiameter.toNat := by
  have := UInt32.lt_iff_toNat_lt.mp h.threshold_lt
  rwa [UInt16.toNat_toUInt32] at this

/-- The TTLs of the last search for a destination. -/
def discovery (dst : Ipv4Address) (requests : List (Ipv4Address × UInt16 × Bool)) : List UInt16 :=
  requests.foldl (fun ttls r => if r.1 = dst then (if r.2.2 then [] else ttls) ++ [r.2.1] else ttls) []

theorem discovery_append (dst : Ipv4Address) (requests : List (Ipv4Address × UInt16 × Bool)) (r : Ipv4Address × UInt16 × Bool) :
    discovery dst (requests ++ [r]) =
      if r.1 = dst then (if r.2.2 then [] else discovery dst requests) ++ [r.2.1] else discovery dst requests := by
  rw [discovery, List.foldl_append]
  rfl

namespace Node

variable {n n' : Node} {dst : Ipv4Address} {rt : RoutingTableEntry}

def requests (n : Node) : List (Ipv4Address × UInt16 × Bool) := n.events.filterMap Event.requestOf

def backoffs (n : Node) : List UInt16 := n.events.filterMap Event.backoffOf

def widest (n : Node) (dst : Ipv4Address) : ℕ := (discovery dst n.requests).countP fun ttl => ttl.toUInt32 = n.attributes.netDiameter

/-- What holds of the entry of a destination: only a search has a counter, which counts its widest requests up to `RreqRetries`. -/
structure EntryOk (n : Node) (dst : Ipv4Address) (rt : RoutingTableEntry) : Prop where
  destination : rt.getDestination = dst
  idle : rt.flag ≠ .IN_SEARCH → rt.reqCount = 0
  counter : rt.flag = .IN_SEARCH → rt.reqCount.toNat ≤ n.attributes.rreqRetries.toNat
  counts : rt.flag = .IN_SEARCH → n.widest dst = rt.reqCount.toNat

structure Searching (n : Node) : Prop where
  ordered : n.attributes.Ordered
  entries : ∀ dst rt, n.routingTable.find? dst = some rt → n.EntryOk dst rt
  backoff : ∀ factor ∈ n.backoffs, factor.toNat ≤ n.attributes.rreqRetries.toNat - 1

/-- What is to hold of a node: the counters and the widest requests of the searches, and the backoff shifts, are within their limits. -/
structure Bounded (n : Node) : Prop where
  counter : ∀ dst rt, n.routingTable.find? dst = some rt → rt.flag = .IN_SEARCH → rt.reqCount.toNat ≤ n.attributes.rreqRetries.toNat
  widest : ∀ dst rt, n.routingTable.find? dst = some rt → rt.flag = .IN_SEARCH → n.widest dst ≤ n.attributes.rreqRetries.toNat
  backoff : ∀ factor ∈ n.backoffs, factor.toNat ≤ n.attributes.rreqRetries.toNat - 1

theorem Searching.bounded (h : n.Searching) : n.Bounded where
  counter dst rt hfind hflag := (h.entries dst rt hfind).counter hflag
  widest dst rt hfind hflag := by
    rw [(h.entries dst rt hfind).counts hflag]
    exact (h.entries dst rt hfind).counter hflag
  backoff := h.backoff

/-! ## The table -/

theorem Searching.congr (h : n.Searching) (hattributes : n'.attributes = n.attributes) (htable : n'.routingTable = n.routingTable)
    (hrequests : n'.requests = n.requests) (hbackoffs : n'.backoffs = n.backoffs) : n'.Searching := by
  refine ⟨by rw [hattributes]; exact h.ordered, fun dst rt hfind => ?_, fun factor hfactor => ?_⟩
  · rw [htable] at hfind
    have hok := h.entries dst rt hfind
    refine ⟨hok.destination, hok.idle, fun hflag => ?_, fun hflag => ?_⟩
    · rw [hattributes]
      exact hok.counter hflag
    · rw [Node.widest, hrequests, hattributes]
      exact hok.counts hflag
  · rw [hattributes]
    rw [hbackoffs] at hfactor
    exact h.backoff factor hfactor

theorem EntryOk.of_idle (hdst : rt.getDestination = dst) (hflag : rt.flag ≠ .IN_SEARCH) : n.EntryOk dst rt.stored := by
  have hstored : rt.stored = rt.setRreqCnt 0 := if_pos hflag
  rw [hstored]
  exact ⟨hdst, fun _ => rfl, fun h => absurd h hflag, fun h => absurd h hflag⟩

theorem EntryOk.stored (h : n.EntryOk dst rt) : n.EntryOk dst rt.stored := by
  by_cases hflag : rt.flag = .IN_SEARCH
  · rw [RoutingTableEntry.stored, if_neg (not_not.mpr hflag)]
    exact h
  · exact EntryOk.of_idle h.destination hflag

theorem Searching.lookupRoute (h : n.Searching) (dst : Ipv4Address) : (n.lookupRoute dst).1.Searching := by
  refine ⟨h.ordered, fun dst' rt hfind => ?_, h.backoff⟩
  have hfind' : (n.routingTable.purge n.now).find? dst' = some rt := hfind
  rw [RoutingTable.find?_purge, Option.bind_eq_some_iff] at hfind'
  obtain ⟨rt', hfind', hpurge⟩ := hfind'
  have hok := h.entries dst' rt' hfind'
  rcases RoutingTableEntry.purge_cases hpurge with rfl | ⟨hflag, hcount, -⟩
  · exact ⟨hok.destination, hok.idle, hok.counter, hok.counts⟩
  · have hsearch : rt.flag ≠ .IN_SEARCH := by rw [hflag]; exact RouteFlags.noConfusion
    exact ⟨(congrArg Ipv4Route.dest (RoutingTableEntry.ipv4Route_of_purge hpurge)).trans hok.destination, fun _ => hcount,
      fun h => absurd h hsearch, fun h => absurd h hsearch⟩

theorem Searching.update (h : n.Searching) (hrt : n.EntryOk rt.getDestination rt.stored) : (n.update rt).Searching := by
  refine ⟨h.ordered, fun dst' rt' hfind => ?_, h.backoff⟩
  have hfind' : (n.routingTable.update rt).find? dst' = some rt' := hfind
  rw [RoutingTable.find?_update] at hfind'
  split at hfind'
  · rename_i hdst
    obtain ⟨-, -, rfl⟩ := Option.map_eq_some_iff.mp hfind'
    subst hdst
    exact ⟨hrt.destination, hrt.idle, hrt.counter, hrt.counts⟩
  · have hok := h.entries dst' rt' hfind'
    exact ⟨hok.destination, hok.idle, hok.counter, hok.counts⟩

theorem Searching.addRoute (h : n.Searching) (hrt : n.EntryOk rt.getDestination rt.stored) : (n.addRoute rt).Searching := by
  refine ⟨h.ordered, fun dst' rt' hfind => ?_, h.backoff⟩
  have hfind' : (n.routingTable.addRoute n.now rt).find? dst' = some rt' := hfind
  rw [RoutingTable.find?_addRoute, Option.or_eq_some_iff] at hfind'
  rcases hfind' with hfind' | ⟨-, hfind'⟩
  · have hok := (h.lookupRoute dst').entries dst' rt' hfind'
    exact ⟨hok.destination, hok.idle, hok.counter, hok.counts⟩
  · rw [Option.ite_none_right_eq_some, Option.some.injEq] at hfind'
    obtain ⟨rfl, rfl⟩ := hfind'
    exact ⟨hrt.destination, hrt.idle, hrt.counter, hrt.counts⟩

theorem Searching.deleteRoute (h : n.Searching) (dst : Ipv4Address) :
    ({ n with routingTable := n.routingTable.deleteRoute n.now dst } : Node).Searching := by
  refine ⟨h.ordered, fun dst' rt hfind => ?_, h.backoff⟩
  have hfind' : (n.routingTable.deleteRoute n.now dst).find? dst' = some rt := hfind
  rw [RoutingTable.find?_deleteRoute, Option.ite_none_left_eq_some] at hfind'
  have hok := (h.lookupRoute dst').entries dst' rt hfind'.2
  exact ⟨hok.destination, hok.idle, hok.counter, hok.counts⟩

/-! ## Steps without a request -/

section

variable (h : n.Searching)

include h

theorem Searching.log {events : List Event} (hevents : ∀ ev ∈ events, ev.isRequest = false) : (n.log events).Searching := by
  have hnone : ∀ {β : Type} (f : Event → Option β), (∀ ev, ev.isRequest = false → f ev = none) →
      (n.log events).events.filterMap f = n.events.filterMap f := by
    intro β f hf
    rw [Node.log, List.filterMap_append, List.filterMap_eq_nil_iff.mpr fun ev hev => hf ev (hevents ev hev), List.append_nil]
  refine h.congr rfl rfl (hnone _ fun ev hev => ?_) (hnone _ fun ev hev => ?_)
  · cases ev <;> first | rfl | cases hev
  · cases ev <;> first | rfl | cases hev

theorem Searching.drop (queue : RequestQueue) (dropped : List QueueEntry) :
    (({ n with queue } : Node).log (dropped.map .dropped)).Searching := by
  have hqueue : ({ n with queue } : Node).Searching := h.congr rfl rfl rfl rfl
  refine hqueue.log fun ev hev => ?_
  obtain ⟨e, -, rfl⟩ := List.mem_map.mp hev
  rfl

theorem Searching.giveUp (dst : Ipv4Address) : (n.giveUp dst).Searching := by
  have hdeleted : ({ n with addressReqTimer := n.addressReqTimer.erase dst, routingTable := n.routingTable.deleteRoute n.now dst } :
    Node).Searching := (h.deleteRoute dst).congr rfl rfl rfl rfl
  exact hdeleted.drop _ _

theorem Searching.update_idle (hflag : rt.flag ≠ .IN_SEARCH) : (n.update rt).Searching :=
  h.update (EntryOk.of_idle rfl hflag)

theorem Searching.addRoute_idle (hflag : rt.flag ≠ .IN_SEARCH) : (n.addRoute rt).Searching :=
  h.addRoute (EntryOk.of_idle rfl hflag)

theorem Searching.updateRouteToNeighbor (sender : Ipv4Address) (receiver : Interface) :
    (n.updateRouteToNeighbor sender receiver).Searching := by
  unfold Node.updateRouteToNeighbor
  dsimp only
  split
  · exact (h.lookupRoute sender).addRoute_idle RouteFlags.noConfusion
  split
  · exact h.lookupRoute sender
  · exact (h.lookupRoute sender).update_idle RouteFlags.noConfusion

theorem Searching.processHello (rrep : RrepHeader) (receiver : Interface) : (n.processHello rrep receiver).Searching := by
  unfold Node.processHello
  dsimp only
  split
  · exact (h.lookupRoute rrep.dst).addRoute_idle RouteFlags.noConfusion
  · exact (h.lookupRoute rrep.dst).update_idle RouteFlags.noConfusion

theorem Searching.update_precursor (dst id : Ipv4Address) :
    ((n.lookupRoute dst).1.update (((n.lookupRoute dst).2.getD (.default n.now)).insertPrecursor id)).Searching := by
  have hlookup := h.lookupRoute dst
  cases hfind : (n.lookupRoute dst).2 with
  | none => exact hlookup.update_idle (by simp [RoutingTableEntry.default, RoutingTableEntry.new])
  | some rt =>
    have hok := hlookup.entries dst rt hfind
    refine hlookup.update (EntryOk.stored ⟨rfl, ?_, ?_, ?_⟩)
    · simpa using hok.idle
    · simpa using hok.counter
    · simpa [hok.destination] using hok.counts

theorem Searching.insertPrecursors {toDst toOrigin : RoutingTableEntry} (hdst : toDst.flag ≠ .IN_SEARCH)
    (horigin : toOrigin.flag ≠ .IN_SEARCH) : (n.insertPrecursors toDst toOrigin).Searching := by
  have hdst' : (toDst.insertPrecursor toOrigin.getNextHop).flag ≠ .IN_SEARCH := by simpa using hdst
  have horigin' : (toOrigin.insertPrecursor toDst.getNextHop).flag ≠ .IN_SEARCH := by simpa using horigin
  have h1 := (h.update_idle hdst').update_precursor toDst.getNextHop toOrigin.getNextHop
  exact (h1.update_idle horigin').update_precursor _ _

theorem Searching.forwardReply (rrep : RrepHeader) : (n.forwardReply rrep).Searching := by
  unfold Node.forwardReply
  dsimp only
  split
  · exact h.lookupRoute _
  split
  · exact h.lookupRoute _
  · rename_i toOrigin _ horigin
    have hidle : (toOrigin.setLifeTime n.now (max n.attributes.activeRouteTimeout (toOrigin.getLifeTime n.now))).flag ≠ .IN_SEARCH :=
      horigin
    have hupdate := ((h.lookupRoute rrep.origin).update_idle hidle).lookupRoute rrep.dst
    split
    · exact hupdate
    split
    · rename_i toDst _ hdst
      exact hupdate.insertPrecursors (by rw [hdst]; exact RouteFlags.noConfusion) horigin
    · exact hupdate

variable {newEntry : RoutingTableEntry}

theorem Searching.updateByReply (hflag : newEntry.flag ≠ .IN_SEARCH) :
    (n.updateByReply newEntry).Searching := by
  unfold Node.updateByReply
  dsimp only
  split
  · exact (h.lookupRoute _).addRoute_idle hflag
  split
  · exact (h.lookupRoute _).update_idle hflag
  · exact h.lookupRoute _

theorem Searching.endSearch (hflag : newEntry.flag ≠ .IN_SEARCH) :
    (n.endSearch newEntry).Searching := (h.update_idle hflag).congr rfl rfl rfl rfl

/-- **A reply keeps the invariant.** -/
theorem Searching.replied (rrep : RrepHeader) (receiver : Interface) (sender : Ipv4Address) :
    (n.replied rrep receiver sender).1.Searching := by
  have hflag : (n.replyEntry rrep receiver sender).flag ≠ .IN_SEARCH := RouteFlags.noConfusion
  unfold Node.replied
  dsimp only
  have hupdated := h.updateByReply hflag
  split_ifs
  · exact h.processHello rrep receiver
  · exact (hupdated.endSearch hflag).lookupRoute rrep.dst
  · exact hupdated.lookupRoute rrep.dst
  · exact hupdated.forwardReply rrep

theorem Searching.sendLoop {route : Ipv4Route} {fuel : ℕ} {m : Node} (hm : Node.sendLoop dst route fuel n = some m) :
    m.Searching := by
  induction fuel generalizing n with
  | zero => cases hm
  | succ fuel ih =>
    cases hd : n.queue.dequeue n.now dst with
    | mk taken r =>
      obtain ⟨queue, dropped⟩ := r
      cases taken with
      | none =>
        rw [sendLoop_of_none hd] at hm
        obtain rfl := Option.some.inj hm
        exact h.drop queue dropped
      | some e =>
        have htag : ({ n with tag := Function.update n.tag e.packet.object none } : Node).Searching := h.congr rfl rfl rfl rfl
        cases hmatch : n.mismatch route e.packet with
        | true =>
          rw [sendLoop_of_mismatch hd hmatch] at hm
          obtain rfl := Option.some.inj hm
          exact htag.drop queue dropped
        | false =>
          rw [sendLoop_of_match hd hmatch] at hm
          exact ih ((htag.drop queue dropped).log (by simp [Event.isRequest])) hm

theorem Searching.sendPacketFromQueue (dst : Ipv4Address) (route : Ipv4Route) :
    (n.sendPacketFromQueue dst route).Searching := by
  obtain ⟨m, hm, hsend⟩ := sendPacketFromQueue_eq n dst route
  rw [hsend]
  exact (h.sendLoop hm).log (by simp [Event.isRequest])

end

/-! ## Requests -/

/-- A search is allowed one more request: if it is a widest one, the counter is below `RreqRetries` and its byte is not full. -/
def MayRequest (n : Node) (dst : Ipv4Address) : Prop :=
  n.rreqCount ≠ n.attributes.rreqRateLimit → ∀ rt, n.routingTable.find? dst = some rt → rt.flag = .IN_SEARCH →
    (n.nextTtl rt).toUInt32 = n.attributes.netDiameter → rt.reqCount.toNat < min n.attributes.rreqRetries.toNat 255

/-- What the first part of `SendRequest` leaves: the entry, whether it begins a search, and the counter before. -/
structure Searched (n : Node) (dst : Ipv4Address) (rt : RoutingTableEntry) (first : Bool) (before : UInt8) : Prop where
  requests : (n.search dst).requests = n.requests ++ [(dst, rt.hops, first)]
  backoffs : (n.search dst).backoffs = n.backoffs
  find? : ∀ dst', (n.search dst).routingTable.find? dst' = if dst = dst' then some rt else (n.routingTable.purge n.now).find? dst'
  destination : rt.getDestination = dst
  flag : rt.flag = .IN_SEARCH
  hops : rt.hops.toNat ≤ n.attributes.netDiameter.toNat
  reqCount : rt.reqCount = if rt.hops.toUInt32 = n.attributes.netDiameter then before + 1 else before
  begins : first = true → before = 0 ∧ ∀ old, n.routingTable.find? dst = some old → old.flag ≠ .IN_SEARCH
  continues : first = false → ∃ old, n.routingTable.find? dst = some old ∧ old.flag = .IN_SEARCH ∧ n.nextTtl old = rt.hops ∧
    before = old.reqCount

theorem nextTtl_le (hthreshold : n.attributes.ttlThreshold.toNat < n.attributes.netDiameter.toNat) (rt : RoutingTableEntry) :
    (n.nextTtl rt).toNat ≤ n.attributes.netDiameter.toNat := by
  have hcast : n.attributes.netDiameter.toUInt16.toNat ≤ n.attributes.netDiameter.toNat := by
    rw [UInt32.toNat_toUInt16]
    exact Nat.mod_le _ _
  unfold nextTtl
  dsimp only
  split_ifs with hflag hwide hring
  · exact hcast
  · rw [UInt16.lt_iff_toNat_lt] at hwide
    omega
  · exact hcast
  · rw [UInt16.lt_iff_toNat_lt] at hring
    omega

@[simp] theorem searched_getDestination (rt : RoutingTableEntry) (ttl : UInt16) : (n.searched rt ttl).getDestination = rt.getDestination := by
  unfold searched
  dsimp only
  split <;> rfl

theorem searched_reqCount (rt : RoutingTableEntry) (ttl : UInt16) :
    (n.searched rt ttl).reqCount = if ttl.toUInt32 = n.attributes.netDiameter then rt.reqCount + 1 else rt.reqCount := by
  unfold searched
  dsimp only
  split <;> rfl

theorem searched_search (h : n.Searching) (dst : Ipv4Address) : ∃ rt first before, n.Searched dst rt first before := by
  have hstart := h.ordered.start_le
  have hthreshold := h.ordered.toNat_lt
  cases hfind : (n.routingTable.purge n.now).find? dst with
  | some rt =>
    have hok := (h.lookupRoute dst).entries dst rt hfind
    have hsearch : n.search dst = ((n.lookupRoute dst).1.update (n.searched rt (n.nextTtl rt))).log
        [.request dst (n.nextTtl rt) (rt.flag ≠ .IN_SEARCH)] := by
      have hlookup : n.lookupRoute dst = ((n.lookupRoute dst).1, some rt) := Prod.ext rfl hfind
      rw [search, hlookup]
    have hdst : (n.searched rt (n.nextTtl rt)).getDestination = dst := (searched_getDestination _ _).trans hok.destination
    refine ⟨n.searched rt (n.nextTtl rt), rt.flag ≠ .IN_SEARCH, rt.reqCount, ?_, ?_, fun dst' => ?_, hdst, rfl, nextTtl_le hthreshold rt,
      searched_reqCount rt _, fun hfirst => ?_, fun hfirst => ?_⟩
    · rw [hsearch]
      exact List.filterMap_append
    · rw [hsearch]
      exact List.filterMap_append.trans (List.append_nil _)
    · rw [hsearch]
      refine ((n.routingTable.purge n.now).find?_update (n.searched rt (n.nextTtl rt)) dst').trans ?_
      rw [hdst]
      by_cases hdst' : dst = dst'
      · rw [if_pos hdst', if_pos hdst', ← hdst', hfind]
        rfl
      · rw [if_neg hdst', if_neg hdst']
    · have hidle := of_decide_eq_true hfirst
      refine ⟨hok.idle hidle, fun old hold hflag => ?_⟩
      -- a search would have been found
      rw [(n.routingTable.find?_purge_inSearch n.now hflag).mpr hold] at hfind
      exact hidle ((Option.some.inj hfind) ▸ hflag)
    · have hflag : rt.flag = .IN_SEARCH := not_not.mp (of_decide_eq_false hfirst)
      exact ⟨rt, (n.routingTable.find?_purge_inSearch n.now hflag).mp hfind, hflag, rfl, rfl⟩
  | none =>
    have hne : n.attributes.ttlStart.toUInt32 ≠ n.attributes.netDiameter := by
      intro heq
      rw [← heq, UInt16.toNat_toUInt32] at hthreshold
      exact absurd (UInt16.le_iff_toNat_le.mp hstart) (by omega)
    set newEntry := (RoutingTableEntry.new n.now none dst false 0 unsetAddress n.attributes.ttlStart unsetAddress
      n.attributes.pathDiscoveryTime).setFlag .IN_SEARCH with hnew
    have hsearch : n.search dst = ((n.lookupRoute dst).1.addRoute newEntry).log [.request dst n.attributes.ttlStart true] := by
      have hlookup : n.lookupRoute dst = ((n.lookupRoute dst).1, none) := Prod.ext rfl hfind
      rw [search, hlookup]
      simp only [hne, if_false]
      rfl
    refine ⟨newEntry, true, 0, ?_, ?_, fun dst' => ?_, rfl, rfl, ?_, ?_, fun _ => ⟨rfl, fun old hold hflag => ?_⟩, fun hfirst => by cases hfirst⟩
    · rw [hsearch]
      exact List.filterMap_append
    · rw [hsearch]
      exact List.filterMap_append.trans (List.append_nil _)
    · rw [hsearch]
      refine ((n.routingTable.purge n.now).find?_addRoute n.now newEntry dst').trans ?_
      rw [RoutingTable.purge_purge]
      show ((n.routingTable.purge n.now).find? dst').or (if dst = dst' then some newEntry else none) = _
      by_cases hdst' : dst = dst'
      · rw [if_pos hdst', if_pos hdst', ← hdst', hfind, Option.none_or]
      · rw [if_neg hdst', if_neg hdst', Option.or_none]
    · have := UInt16.le_iff_toNat_le.mp hstart
      show n.attributes.ttlStart.toNat ≤ _
      omega
    · exact (if_neg hne).symm
    · rw [(n.routingTable.find?_purge_inSearch n.now hflag).mpr hold] at hfind
      cases hfind

theorem attributes_search (n : Node) (dst : Ipv4Address) : (n.search dst).attributes = n.attributes := by
  unfold search
  dsimp only
  split <;> rfl

theorem Searched.searching (h : n.Searching) {first : Bool} {before : UInt8} (hs : n.Searched dst rt first before)
    (hlimit : rt.reqCount.toNat ≤ n.attributes.rreqRetries.toNat)
    (hcount : rt.reqCount.toNat = before.toNat + if rt.hops.toUInt32 = n.attributes.netDiameter then 1 else 0) :
    (n.search dst).Searching := by
  have hattributes := n.attributes_search dst
  refine ⟨by rw [hattributes]; exact h.ordered, fun dst' rt' hfind => ?_, fun factor hfactor => ?_⟩
  · rw [hs.find?] at hfind
    split at hfind
    · rename_i hdst
      obtain rfl := Option.some.inj hfind
      subst hdst
      refine ⟨hs.destination, fun hflag => absurd hs.flag hflag, fun _ => by rw [hattributes]; exact hlimit, fun _ => ?_⟩
      rw [Node.widest, hs.requests, hattributes, discovery_append, if_pos rfl, List.countP_append, hcount, List.countP_singleton]
      have hbefore : List.countP (fun ttl => decide (ttl.toUInt32 = n.attributes.netDiameter))
          (if first then [] else discovery dst n.requests) = before.toNat := by
        cases first with
        | true =>
          rw [(hs.begins rfl).1]
          rfl
        | false =>
          obtain ⟨old, hold, hflag, -, hbefore⟩ := hs.continues rfl
          rw [hbefore]
          exact (h.entries dst old hold).counts hflag
      simp only [hbefore, decide_eq_true_eq]
    · rename_i hdst
      have hok := (h.lookupRoute dst').entries dst' rt' hfind
      refine ⟨hok.destination, hok.idle, fun hflag => by rw [hattributes]; exact hok.counter hflag, fun hflag => ?_⟩
      rw [Node.widest, hs.requests, hattributes, discovery_append, if_neg hdst]
      exact hok.counts hflag
  · rw [hattributes]
    rw [hs.backoffs] at hfactor
    exact h.backoff factor hfactor

def scheduled (n : Node) (dst : Ipv4Address) : Node :=
  { (n.lookupRoute dst).1 with addressReqTimer := dst :: n.addressReqTimer.erase dst }

theorem scheduleRreqRetry_of_inSearch (hfind : n.routingTable.find? dst = some rt) (hflag : rt.flag = .IN_SEARCH) :
    n.scheduleRreqRetry dst = if rt.hops.toUInt32 < n.attributes.netDiameter then .ok (n.scheduled dst)
      else if 0 < rt.reqCount then .ok ((n.scheduled dst).log [.backoff dst (rt.reqCount.toUInt16 - 1)]) else .error .abort := by
  have hlookup : (n.lookupRoute dst).2 = some rt := (n.routingTable.find?_purge_inSearch n.now hflag).mpr hfind
  rw [scheduleRreqRetry, hlookup]
  rfl

theorem Searching.scheduled (h : n.Searching) (dst : Ipv4Address) : (n.scheduled dst).Searching :=
  (h.lookupRoute dst).congr rfl rfl rfl rfl

/-- A retry is scheduled, with a shift below the limit, unless the counter of a widest request is 0. -/
theorem Searching.scheduleRreqRetry (h : n.Searching) (hfind : n.routingTable.find? dst = some rt) (hflag : rt.flag = .IN_SEARCH)
    (hpos : ¬ rt.hops.toUInt32 < n.attributes.netDiameter → 0 < rt.reqCount) :
    Yields (· ≠ .abort) Searching (n.scheduleRreqRetry dst) := by
  rw [scheduleRreqRetry_of_inSearch hfind hflag]
  have hscheduled := h.scheduled dst
  split_ifs with hnear hcount
  · exact hscheduled
  · refine ⟨h.ordered, fun dst' rt' hfind' => ?_, fun factor hfactor => ?_⟩
    · have hok := hscheduled.entries dst' rt' hfind'
      refine ⟨hok.destination, hok.idle, hok.counter, fun hflag' => ?_⟩
      have hrequests : ((n.scheduled dst).log [.backoff dst (rt.reqCount.toUInt16 - 1)]).requests = (n.scheduled dst).requests :=
        List.filterMap_append.trans (List.append_nil _)
      rw [Node.widest, hrequests]
      exact hok.counts hflag'
    · have hbackoffs : ((n.scheduled dst).log [.backoff dst (rt.reqCount.toUInt16 - 1)]).backoffs =
        (n.scheduled dst).backoffs ++ [rt.reqCount.toUInt16 - 1] := List.filterMap_append
      rw [hbackoffs, List.mem_append, List.mem_singleton] at hfactor
      rcases hfactor with hfactor | rfl
      · exact hscheduled.backoff factor hfactor
      · have hle := (h.entries dst rt hfind).counter hflag
        rw [UInt8.lt_iff_toNat_lt] at hcount
        have hone : (1 : UInt16) ≤ rt.reqCount.toUInt16 := by
          rw [UInt16.le_iff_toNat_le, UInt8.toNat_toUInt16]
          exact hcount
        rw [UInt16.toNat_sub_of_le _ _ hone, UInt8.toNat_toUInt16]
        exact Nat.sub_le_sub_right hle 1
  · exact absurd (hpos hnear) hcount

theorem Searched.reqCount_le (h : n.Searching) {first : Bool} {before : UInt8} (hs : n.Searched dst rt first before)
    (hmay : first = false → rt.hops.toUInt32 = n.attributes.netDiameter → before.toNat < min n.attributes.rreqRetries.toNat 255) :
    rt.reqCount.toNat ≤ n.attributes.rreqRetries.toNat ∧
      rt.reqCount.toNat = before.toNat + if rt.hops.toUInt32 = n.attributes.netDiameter then 1 else 0 := by
  have hone := UInt32.le_iff_toNat_le.mp h.ordered.retries_pos
  rw [hs.reqCount]
  have hlimit : before.toNat ≤ n.attributes.rreqRetries.toNat ∧
      (rt.hops.toUInt32 = n.attributes.netDiameter → before.toNat < min n.attributes.rreqRetries.toNat 255) := by
    cases first with
    | true =>
      rw [(hs.begins rfl).1]
      exact ⟨Nat.zero_le _, fun _ => lt_min hone (by decide)⟩
    | false =>
      obtain ⟨old, hold, hflag, -, rfl⟩ := hs.continues rfl
      exact ⟨(h.entries dst old hold).counter hflag, hmay rfl⟩
  split_ifs with hwide
  · obtain ⟨hlt, hbyte⟩ := lt_min_iff.mp (hlimit.2 hwide)
    rw [UInt8.toNat_add, UInt8.toNat_one, Nat.mod_eq_of_lt (by omega)]
    exact ⟨hlt, rfl⟩
  · exact ⟨hlimit.1, rfl⟩

/-- **A request keeps the invariant** if the search is allowed one more. -/
theorem Searching.sendRequest (h : n.Searching) (hmay : n.MayRequest dst) : Yields (· ≠ .abort) Searching (n.sendRequest dst) := by
  unfold Node.sendRequest
  split
  · exact h.congr rfl rfl rfl rfl
  · rename_i hrate
    have hcounted : ({ n with rreqCount := n.rreqCount + 1 } : Node).Searching := h.congr rfl rfl rfl rfl
    obtain ⟨rt, first, before, hs⟩ := searched_search hcounted dst
    obtain ⟨hle, hcount⟩ := hs.reqCount_le hcounted fun hfirst hwide => by
      obtain ⟨old, hold, hflag, hhops, rfl⟩ := hs.continues hfirst
      exact hmay hrate old hold hflag ((congrArg UInt16.toUInt32 hhops).trans hwide)
    have hfind := hs.find? dst
    rw [if_pos rfl] at hfind
    refine Searching.scheduleRreqRetry (hs.searching hcounted hle hcount) hfind hs.flag fun hnear => ?_
    -- the TTL is the largest one, so the counter was raised
    have hwide : rt.hops.toUInt32 = n.attributes.netDiameter := by
      rw [attributes_search, UInt32.lt_iff_toNat_lt, UInt16.toNat_toUInt32, not_lt] at hnear
      rw [← UInt32.toNat_inj, UInt16.toNat_toUInt32]
      exact le_antisymm hs.hops hnear
    rw [if_pos hwide] at hcount
    rw [UInt8.lt_iff_toNat_lt, hcount]
    exact Nat.succ_pos _

theorem mayRequest_of_bounded (h : n.Searching) (hbounded : Yields (· ≠ .abort) Bounded (n.sendRequest dst)) : n.MayRequest dst := by
  intro hrate old hold hflag hwide
  by_contra hfull
  have hcounted : ({ n with rreqCount := n.rreqCount + 1 } : Node).Searching := h.congr rfl rfl rfl rfl
  obtain ⟨rt, first, before, hs⟩ := searched_search hcounted dst
  rw [Node.sendRequest, if_neg hrate] at hbounded
  cases first with
  | true => exact (hs.begins rfl).2 old hold hflag
  | false =>
    obtain ⟨old', hold', -, hhops, rfl⟩ := hs.continues rfl
    obtain rfl := Option.some.inj (hold.symm.trans hold')
    have hwide' : rt.hops.toUInt32 = n.attributes.netDiameter := (congrArg UInt16.toUInt32 hhops).symm.trans hwide
    have hcount := hs.reqCount
    rw [if_pos hwide'] at hcount
    have hfind := hs.find? dst
    rw [if_pos rfl] at hfind
    rw [scheduleRreqRetry_of_inSearch hfind hs.flag, attributes_search, if_neg (by rw [hwide']; exact lt_irrefl _)] at hbounded
    by_cases hbyte : old.reqCount.toNat < 255
    · have hnext : rt.reqCount.toNat = old.reqCount.toNat + 1 := by
        rw [hcount, UInt8.toNat_add, UInt8.toNat_one, Nat.mod_eq_of_lt (by omega)]
      rw [if_pos (by rw [UInt8.lt_iff_toNat_lt, hnext]; exact Nat.succ_pos _)] at hbounded
      have hle := Bounded.counter hbounded dst rt ((RoutingTable.find?_purge_inSearch _ _ hs.flag).mpr hfind) hs.flag
      have hattributes : (((({ n with rreqCount := n.rreqCount + 1 } : Node).search dst).scheduled dst).log
        [.backoff dst (rt.reqCount.toUInt16 - 1)]).attributes = n.attributes := attributes_search _ _
      rw [hattributes, hnext] at hle
      exact hfull (lt_min hle hbyte)
    · -- the byte is full and the counter is 0 again
      have hzero : rt.reqCount = 0 := by
        have := old.reqCount.toNat_lt
        rw [hcount, ← UInt8.toNat_inj, UInt8.toNat_add, UInt8.toNat_one, show old.reqCount.toNat = 255 by omega]
        rfl
      rw [if_neg (by rw [hzero]; exact UInt8.lt_irrefl 0)] at hbounded
      exact hbounded rfl

/-! ## Runs -/

theorem mayRequest_lookupRoute {id : Ipv4Address} : (n.lookupRoute id).1.MayRequest dst ↔ n.MayRequest dst := by
  refine forall_congr' fun _ => forall_congr' fun rt => ?_
  constructor
  · exact fun h hfind hflag => h ((n.routingTable.find?_purge_inSearch n.now hflag).mpr hfind) hflag
  · exact fun h hfind hflag => h ((n.routingTable.find?_purge_inSearch n.now hflag).mp hfind) hflag

theorem Searching.deferredRouteOutput (h : n.Searching) (p : Packet) (header : Ipv4Header) (ucb ecb : ℕ) :
    Yields (· ≠ .abort) Searching (n.deferredRouteOutput p header ucb ecb) := by
  unfold Node.deferredRouteOutput
  split
  · exact Failure.noConfusion
  · rename_i result entry queue dropped henqueue
    have hdrop := h.drop queue dropped
    dsimp only
    split
    · have haccept : ((({ n with queue } : Node).log (dropped.map .dropped)).log [.accepted entry]).Searching :=
        hdrop.log (by simp [Event.isRequest])
      have hlookup := haccept.lookupRoute header.destination
      split
      · rename_i hall
        refine hlookup.sendRequest fun _ rt hfind hflag => ?_
        have hfound : (((({ n with queue } : Node).log (dropped.map .dropped)).log [.accepted entry]).lookupRoute header.destination).2 = some rt :=
          hfind
        rw [hfound] at hall
        exact absurd hflag (of_decide_eq_true hall)
      · exact hlookup
    · exact hdrop

/-- The timer of a search asks for one more request only if the counter is not at its limit. -/
theorem Searching.expired (h : n.Searching)
    (hmay : (∀ rt, n.routingTable.find? dst = some rt → rt.reqCount.toUInt32 ≠ n.attributes.rreqRetries) → n.MayRequest dst) :
    Yields (· ≠ .abort) (fun r => r.1.Searching) (n.expired dst) := by
  have hlookup := h.lookupRoute dst
  unfold Node.expired
  dsimp only
  split
  · exact hlookup
  split
  · exact hlookup.giveUp dst
  split
  · rename_i hcount hflag
    refine (hlookup.sendRequest (mayRequest_lookupRoute.mpr (hmay fun rt hfind => ?_))).map fun n' hn' => hn'
    -- the entry of the search is the one that was looked up
    cases hfound : (n.lookupRoute dst).2 with
    | none =>
      rw [hfound] at hflag
      cases hflag
    | some rt' =>
      rw [hfound] at hflag hcount
      obtain rfl := Option.some.inj (hfind.symm.trans ((n.routingTable.find?_purge_inSearch n.now hflag).mp hfound))
      exact hcount
  · exact hlookup.giveUp dst

/-- What a step is to meet: the scheduled calls and the timers do not ask for a request that the search is not allowed. -/
structure Paced (n : Node) (s : Step) : Prop where
  deferred : ∀ dst, s = .sendRequest dst → dst ∈ n.deferred → n.MayRequest dst
  timer : ∀ dst, s = .routeRequestTimerExpire dst → dst ∈ n.addressReqTimer →
    (∀ rt, n.routingTable.find? dst = some rt → rt.reqCount.toUInt32 ≠ n.attributes.rreqRetries) → n.MayRequest dst

/-- **A paced step keeps the invariant**, up to `SendPacketFromQueue`. -/
theorem Searching.act (h : n.Searching) {s : Step} (hpaced : n.Paced s) : Yields (· ≠ .abort) (fun r => r.1.Searching) (n.act s) := by
  cases s with
  | wait t => exact h.congr rfl rfl rfl rfl
  | setTag object oif => exact h.congr rfl rfl rfl rfl
  | setMaxQueueLen len => exact h.congr rfl rfl rfl rfl
  | setMaxQueueTime t => exact h.congr rfl rfl rfl rfl
  | deferredRouteOutput p header ucb ecb => exact (h.deferredRouteOutput p header ucb ecb).map fun n' hn' => hn'
  | sendRequest dst =>
    rw [Node.act]
    split
    · rename_i hmem
      have hdeferred : ({ n with deferred := n.deferred.erase dst } : Node).Searching := h.congr rfl rfl rfl rfl
      exact (hdeferred.sendRequest (hpaced.deferred dst rfl hmem)).map fun n' hn' => hn'
    · exact h
  | rreqRateLimitTimerExpire => exact h.congr rfl rfl rfl rfl
  | routeRequestTimerExpire dst =>
    rw [Node.act]
    split
    · rename_i hmem
      have htimer : ({ n with addressReqTimer := n.addressReqTimer.erase dst } : Node).Searching := h.congr rfl rfl rfl rfl
      exact htimer.expired (hpaced.timer dst rfl hmem)
    · exact h
  | recvReply rrep receiver sender => exact (h.updateRouteToNeighbor sender receiver).replied rrep receiver sender

theorem Searching.step (h : n.Searching) {s : Step} (hpaced : n.Paced s) : Yields (· ≠ .abort) Searching (n.step s) := by
  refine (h.act hpaced).map fun r hr => ?_
  obtain ⟨n', call⟩ := r
  cases call with
  | none => exact hr
  | some c => exact hr.sendPacketFromQueue c.1 c.2

theorem Paced.of_bounded (h : n.Searching) {s : Step} (hstep : Yields (· ≠ .abort) Bounded (n.step s)) : n.Paced s := by
  refine ⟨fun dst hs hmem => ?_, fun dst hs hmem hcount => ?_⟩
  · subst hs
    have hdeferred : ({ n with deferred := n.deferred.erase dst } : Node).Searching := h.congr rfl rfl rfl rfl
    refine mayRequest_of_bounded (n := { n with deferred := n.deferred.erase dst }) hdeferred ?_
    rw [Node.step, Node.act, if_pos hmem] at hstep
    cases hsend : ({ n with deferred := n.deferred.erase dst } : Node).sendRequest dst with
    | error e =>
      rw [hsend] at hstep
      exact hstep
    | ok n' =>
      rw [hsend] at hstep
      exact hstep
  · intro hrate rt hfind hflag hwide
    subst hs
    set m : Node := { n with addressReqTimer := n.addressReqTimer.erase dst } with hm
    have htimer : m.Searching := h.congr rfl rfl rfl rfl
    have hfound : (m.lookupRoute dst).2 = some rt := (n.routingTable.find?_purge_inSearch n.now hflag).mpr hfind
    have hexpired : m.expired dst = ((m.lookupRoute dst).1.sendRequest dst).map fun n => (n, none) := by
      unfold Node.expired
      dsimp only
      rw [hfound, Option.getD_some, if_neg (by rw [hflag]; exact fun hvalid => RouteFlags.noConfusion hvalid.2), if_neg (hcount rt hfind),
        if_pos hflag]
    refine mayRequest_lookupRoute.mp (mayRequest_of_bounded (htimer.lookupRoute dst) ?_) hrate rt hfind hflag hwide
    rw [Node.step, Node.act, if_pos hmem, ← hm, hexpired] at hstep
    cases hsend : (m.lookupRoute dst).1.sendRequest dst with
    | error e =>
      rw [hsend] at hstep
      exact hstep
    | ok n' =>
      rw [hsend] at hstep
      exact hstep

theorem Searching.addRoutes {t : RoutingTable} (h : ({ n with routingTable := t } : Node).Searching) {l : List RoutingTableEntry}
    (hl : ∀ rt ∈ l, rt.flag ≠ .IN_SEARCH) :
    ({ n with routingTable := l.foldl (fun t rt => t.addRoute n.now rt) t } : Node).Searching := by
  induction l generalizing t with
  | nil => exact h
  | cons rt l ih =>
    exact ih (t := t.addRoute n.now rt) (h.addRoute_idle (hl rt List.mem_cons_self)) fun rt' hrt' => hl rt' (List.mem_cons_of_mem _ hrt')

theorem searching_start {attributes : Attributes} (hordered : attributes.Ordered) (interfaces : List Interface) :
    (start attributes interfaces).Searching := by
  let empty : RoutingTable := ⟨OrdMap.empty, milliSeconds 15000, by decide⟩
  have hempty : ({ start attributes interfaces with routingTable := empty } : Node).Searching :=
    ⟨hordered, fun dst rt hfind => (by cases hfind), fun factor hfactor => absurd hfactor List.not_mem_nil⟩
  refine Searching.addRoutes (n := start attributes interfaces) hempty fun rt hrt => ?_
  rcases List.mem_cons.mp hrt with rfl | hrt
  · exact RouteFlags.noConfusion
  · obtain ⟨i, -, rfl⟩ := List.mem_map.mp hrt
    exact RouteFlags.noConfusion

/-- **Route discovery stops**: the limits hold all along the runs whose steps are paced, and along no other. -/
theorem bounded_iff (attributes : Attributes) (interfaces : List Interface) (hordered : attributes.Ordered) (steps : List Step) :
    (∀ l, l <+: steps → Yields (· ≠ .abort) Bounded ((start attributes interfaces).run l)) ↔
      ∀ l s, l ++ [s] <+: steps → ∀ n, (start attributes interfaces).run l = .ok n → n.Paced s := by
  refine forall_prefix_iff_of_inv (R := fun l => Yields (· ≠ .abort) Searching ((start attributes interfaces).run l))
    (Q := fun l s => ∀ n, (start attributes interfaces).run l = .ok n → n.Paced s) (searching_start hordered interfaces)
    (fun l hl => hl.mono fun n hn => hn.bounded) (fun l s hl hpaced => ?_) (fun l s hl hbounded n hrun => ?_) steps
  · cases hrun : (start attributes interfaces).run l with
    | error e =>
      rw [hrun] at hl
      rw [run_append_error s hrun]
      exact hl
    | ok n =>
      rw [hrun] at hl
      rw [run_append_singleton s hrun]
      exact Searching.step hl (hpaced n hrun)
  · rw [hrun] at hl
    rw [run_append_singleton s hrun] at hbounded
    exact Paced.of_bounded hl hbounded

/-- The first packet for a destination, with the default attributes. -/
theorem bounded_iff_first : Yields (· ≠ .abort) Bounded ((start {} []).run
    [.deferredRouteOutput ⟨0, 7⟩ { source := 0x7f000001, destination := 0x0a000201, ttl := 63 } 0 0]) := by
  refine (bounded_iff {} [] ⟨by decide, by decide, by decide⟩ _).mpr (fun l s hl n _ => ?_) _ (List.prefix_refl _)
  have hs : s = .deferredRouteOutput ⟨0, 7⟩ { source := 0x7f000001, destination := 0x0a000201, ttl := 63 } 0 0 :=
    List.mem_singleton.mp (hl.subset (List.mem_append_right l List.mem_cons_self))
  rw [hs]
  exact ⟨fun dst h => (by cases h), fun dst h => (by cases h)⟩

def packetTo (uid : UInt64) (dst : Ipv4Address) : Step :=
  .deferredRouteOutput ⟨uid.toNat, uid⟩ { source := 0x7f000001, destination := dst, ttl := 63 } 0 0

theorem not_bounded_of_counter {r : Except Failure Node} {retries : UInt32} {count : UInt8} (hcount : r.map (fun n =>
      (n.attributes.rreqRetries, (n.routingTable.find? dst).map fun rt => (rt.flag, rt.reqCount))) = .ok (retries, some (.IN_SEARCH, count)))
    (hlt : retries.toNat < count.toNat) : ¬ Yields (· ≠ .abort) Bounded r := by
  intro h
  cases r with
  | error e => cases hcount
  | ok n =>
    obtain ⟨hretries, hentry⟩ := Prod.mk.inj (Except.ok.inj hcount)
    obtain ⟨rt, hfind, hrt⟩ := Option.map_eq_some_iff.mp hentry
    obtain ⟨hflag, hreq⟩ := Prod.mk.inj hrt
    have hle := Bounded.counter h dst rt hfind hflag
    rw [hretries, hreq] at hle
    omega

/-- Ten packets to ten hosts use up the rate limit. The requests for seven packets to another host are put off, and made together when
the limit is lifted: with TTL 1, 3, 5, 7, 35, 35 and 35. -/
def deferredRequests : List Step :=
  (List.range 10).map (fun i => packetTo (UInt64.ofNat i) (UInt32.ofNat (0x0a000101 + i))) ++
    (List.range 7).map (fun i => packetTo (UInt64.ofNat (10 + i)) 0x0a000201) ++ [.rreqRateLimitTimerExpire] ++
    List.replicate 7 (.sendRequest 0x0a000201)

theorem not_bounded : ¬ ∀ attributes interfaces, attributes.Ordered → ∀ steps l, l <+: steps →
    Yields (· ≠ .abort) Bounded ((start attributes interfaces).run l) := by
  intro h
  have hcount : ((start {} []).run deferredRequests).map (fun n =>
      (n.attributes.rreqRetries, (n.routingTable.find? 0x0a000201).map fun rt => (rt.flag, rt.reqCount))) =
        .ok (2, some (.IN_SEARCH, 3)) := by
    rfl
  exact not_bounded_of_counter hcount (by decide) (h {} [] ⟨by decide, by decide, by decide⟩ _ _ (List.prefix_refl deferredRequests))

end Node

end Ns3Ndn.Aodv
