import Mathlib
import Ns3Ndn.Aodv.RoutingProtocol
import Ns3Ndn.Lib.Run

/-!
# Deferred packets

A packet that waits for a route is to end in one of its callbacks. `SendPacketFromQueue` breaks this: it returns at a packet that is bound to
another interface than the one of the route, after the packet was taken off the queue, and leaves the packets behind it.

* `NoneVanishes`: every accepted packet waits, was forwarded or was dropped, and no packet is left behind;
* **`noneVanishes_iff`**: the runs in which no packet vanishes.
-/

namespace Ns3Ndn.Aodv

open OrdLib RunLib Internet

namespace Event

def acceptedOf : Event → Option QueueEntry
  | accepted e => some e
  | _ => none

def forwardedOf : Event → Option QueueEntry
  | forwarded e _ _ => some e
  | _ => none

def droppedOf : Event → Option QueueEntry
  | dropped e => some e
  | _ => none

end Event

namespace Node

variable {n n' : Node} {dst : Ipv4Address} {route : Ipv4Route}

/-- The packets that wait, were forwarded or were dropped. -/
def accounted (n : Node) : Multiset QueueEntry :=
  (n.queue.queue : Multiset QueueEntry) + (n.events.filterMap Event.forwardedOf : List QueueEntry) +
    (n.events.filterMap Event.droppedOf : List QueueEntry)

/-- Every accepted packet waits, was forwarded or was dropped, once, and no packet is left behind by `SendPacketFromQueue`. -/
structure NoneVanishes (n : Node) : Prop where
  accounted : (n.events.filterMap Event.acceptedOf : Multiset QueueEntry) = n.accounted
  returned : ∀ dst waiting, Event.returned dst waiting ∈ n.events → waiting = []

def bound (n : Node) (dst : Ipv4Address) (route : Ipv4Route) : Bool :=
  n.queue.queue.any fun e => ! e.isExpired n.now && e.isFor dst && n.mismatch route e.packet

/-- The step offers no packet to an empty queue of length 0, and no packet is bound to another interface than the route it gets. -/
structure Fits (n : Node) (s : Step) : Prop where
  room : ∀ p header ucb ecb, s = .deferredRouteOutput p header ucb ecb → n.queue.maxLen = 0 → (n.queue.purge n.now).1.queue ≠ []
  unbound : ∀ n' dst route, n.act s = .ok (n', some (dst, route)) → n'.bound dst route = false

/-! ## Steps without a route -/

section

variable (h : n.NoneVanishes)

include h

theorem NoneVanishes.congr (hqueue : n'.queue.queue = n.queue.queue) (hevents : n'.events = n.events) : n'.NoneVanishes := by
  obtain ⟨haccounted, hreturned⟩ := h
  refine ⟨?_, ?_⟩
  · rw [Node.accounted, hqueue, hevents]
    exact haccounted
  · rw [hevents]
    exact hreturned

theorem NoneVanishes.lookupRoute (dst : Ipv4Address) : (n.lookupRoute dst).1.NoneVanishes := h.congr rfl rfl

theorem NoneVanishes.update (rt : RoutingTableEntry) : (n.update rt).NoneVanishes := h.congr rfl rfl

theorem NoneVanishes.requests (hqueue : n'.queue = n.queue) {events : List Event} (hevents : n'.events = n.events ++ events)
    (hrequest : ∀ ev ∈ events, ev.isRequest = true) : n'.NoneVanishes := by
  have hnone : ∀ f : Event → Option QueueEntry, (∀ ev, ev.isRequest = true → f ev = none) → events.filterMap f = [] := fun f hf =>
    List.filterMap_eq_nil_iff.mpr fun ev hev => hf ev (hrequest ev hev)
  have hempty : ∀ f : Event → Option QueueEntry, (∀ ev, ev.isRequest = true → f ev = none) →
      n'.events.filterMap f = n.events.filterMap f := fun f hf => by
    rw [hevents, List.filterMap_append, hnone f hf, List.append_nil]
  obtain ⟨haccounted, hreturned⟩ := h
  refine ⟨?_, fun dst waiting hmem => ?_⟩
  · rw [Node.accounted, hqueue, hempty _ fun ev => by cases ev <;> simp [Event.isRequest, Event.acceptedOf],
      hempty _ fun ev => by cases ev <;> simp [Event.isRequest, Event.forwardedOf],
      hempty _ fun ev => by cases ev <;> simp [Event.isRequest, Event.droppedOf]]
    exact haccounted
  · rw [hevents, List.mem_append] at hmem
    rcases hmem with hmem | hmem
    · exact hreturned dst waiting hmem
    · exact absurd (hrequest _ hmem) Bool.false_ne_true

theorem NoneVanishes.scheduleRreqRetry : Yields (· = .abort) NoneVanishes (n.scheduleRreqRetry dst) := by
  unfold Node.scheduleRreqRetry
  dsimp only
  split
  · exact h.congr rfl rfl
  split
  · exact h.requests rfl rfl (by simp [Event.isRequest])
  · rfl

theorem NoneVanishes.search (dst : Ipv4Address) : (n.search dst).NoneVanishes := by
  unfold Node.search
  dsimp only
  split <;> exact h.requests rfl rfl (by simp [Event.isRequest])

theorem NoneVanishes.sendRequest (dst : Ipv4Address) : Yields (· = .abort) NoneVanishes (n.sendRequest dst) := by
  unfold Node.sendRequest
  split
  · exact h.congr rfl rfl
  · have hcount : ({ n with rreqCount := n.rreqCount + 1 } : Node).NoneVanishes := h.congr rfl rfl
    exact (hcount.search dst).scheduleRreqRetry

theorem NoneVanishes.updateRouteToNeighbor (sender : Ipv4Address) (receiver : Interface) :
    (n.updateRouteToNeighbor sender receiver).NoneVanishes := by
  unfold Node.updateRouteToNeighbor
  dsimp only
  split
  · exact h.congr rfl rfl
  · split <;> exact h.congr rfl rfl

theorem NoneVanishes.processHello (rrep : RrepHeader) (receiver : Interface) : (n.processHello rrep receiver).NoneVanishes := by
  unfold Node.processHello
  dsimp only
  split <;> exact h.congr rfl rfl

theorem NoneVanishes.updateByReply (newEntry : RoutingTableEntry) : (n.updateByReply newEntry).NoneVanishes := by
  unfold Node.updateByReply
  dsimp only
  split
  · exact h.congr rfl rfl
  · split <;> exact h.congr rfl rfl

theorem NoneVanishes.insertPrecursors (toDst toOrigin : RoutingTableEntry) :
    (n.insertPrecursors toDst toOrigin).NoneVanishes :=
  (((((h.update _).lookupRoute _).update _).update _).lookupRoute _).update _

theorem NoneVanishes.forwardReply (rrep : RrepHeader) : (n.forwardReply rrep).NoneVanishes := by
  unfold Node.forwardReply
  dsimp only
  split
  · exact h.lookupRoute _
  split
  · exact h.lookupRoute _
  split
  · exact ((h.lookupRoute _).update _).lookupRoute _
  split
  · exact (((h.lookupRoute _).update _).lookupRoute _).insertPrecursors _ _
  · exact ((h.lookupRoute _).update _).lookupRoute _

theorem NoneVanishes.endSearch (newEntry : RoutingTableEntry) : (n.endSearch newEntry).NoneVanishes := h.congr rfl rfl

theorem NoneVanishes.replied (rrep : RrepHeader) (receiver : Interface) (sender : Ipv4Address) :
    (n.replied rrep receiver sender).1.NoneVanishes := by
  unfold Node.replied
  dsimp only
  have hupdated := h.updateByReply (n.replyEntry rrep receiver sender)
  split_ifs
  · exact h.processHello rrep receiver
  · exact (hupdated.endSearch _).lookupRoute rrep.dst
  · exact hupdated.lookupRoute rrep.dst
  · exact hupdated.forwardReply rrep

end

/-! ## Dropped and accepted packets -/

variable {f : Event → Option QueueEntry}

theorem filterMap_map_none {g : QueueEntry → Event} (h : ∀ e, f (g e) = none) (l : List QueueEntry) :
    (l.map g).filterMap f = [] := by
  refine List.filterMap_eq_nil_iff.mpr fun ev hev => ?_
  obtain ⟨e, -, rfl⟩ := List.mem_map.mp hev
  exact h e

theorem filterMap_map_some {g : QueueEntry → Event} (h : ∀ e, f (g e) = some e) (l : List QueueEntry) :
    (l.map g).filterMap f = l := by
  rw [List.filterMap_map]
  exact (List.filterMap_congr fun e _ => h e).trans List.filterMap_some

theorem accounted_drop {queue : RequestQueue} {dropped : List QueueEntry} : (({ n with queue } : Node).log (dropped.map .dropped)).accounted =
    (queue.queue : Multiset QueueEntry) + (dropped : Multiset QueueEntry) + (n.events.filterMap Event.forwardedOf : List QueueEntry) +
      (n.events.filterMap Event.droppedOf : List QueueEntry) := by
  simp only [Node.accounted, Node.log, List.filterMap_append, filterMap_map_none (fun _ => rfl : ∀ e, (Event.dropped e).forwardedOf = none),
    filterMap_map_some (fun _ => rfl : ∀ e, (Event.dropped e).droppedOf = some e), List.append_nil, ← Multiset.coe_add]
  abel

theorem accepted_drop {queue : RequestQueue} {dropped : List QueueEntry} :
    (({ n with queue } : Node).log (dropped.map .dropped)).events.filterMap Event.acceptedOf = n.events.filterMap Event.acceptedOf := by
  simp only [Node.log, List.filterMap_append, filterMap_map_none (fun _ => rfl : ∀ e, (Event.dropped e).acceptedOf = none), List.append_nil]

theorem mem_drop {queue : RequestQueue} {dropped waiting : List QueueEntry}
    (h : Event.returned dst waiting ∈ (({ n with queue } : Node).log (dropped.map .dropped)).events) :
    Event.returned dst waiting ∈ n.events := by
  rcases List.mem_append.mp h with hmem | hmem
  · exact hmem
  · obtain ⟨e, -, he⟩ := List.mem_map.mp hmem
    cases he

theorem NoneVanishes.drop (h : n.NoneVanishes) {queue : RequestQueue} {dropped : List QueueEntry}
    (hqueue : (queue.queue : Multiset QueueEntry) + (dropped : Multiset QueueEntry) = n.queue.queue) :
    (({ n with queue } : Node).log (dropped.map .dropped)).NoneVanishes := by
  refine ⟨?_, fun dst waiting hmem => h.returned dst waiting (mem_drop hmem)⟩
  rw [accepted_drop, accounted_drop, hqueue, h.accounted]
  rfl

theorem NoneVanishes.giveUp (h : n.NoneVanishes) (dst : Ipv4Address) : (n.giveUp dst).NoneVanishes := by
  have hdeleted : ({ n with addressReqTimer := n.addressReqTimer.erase dst, routingTable := n.routingTable.deleteRoute n.now dst } :
    Node).NoneVanishes := h.congr rfl rfl
  exact hdeleted.drop RequestQueue.queue_dropPacketWithDst

theorem filterMap_snoc_none {ev : Event} (h : f ev = none) (l : List Event) :
    (l ++ [ev]).filterMap f = l.filterMap f := by
  rw [List.filterMap_append, List.filterMap_cons_none h, List.filterMap_nil, List.append_nil]

theorem filterMap_snoc_some {ev : Event} {e : QueueEntry} (h : f ev = some e) (l : List Event) :
    (l ++ [ev]).filterMap f = l.filterMap f ++ [e] := by
  rw [List.filterMap_append, List.filterMap_cons_some h, List.filterMap_nil]

/-- A new packet is accounted for where it waits. -/
theorem NoneVanishes.accept (h : n.NoneVanishes) {queue : RequestQueue} {dropped : List QueueEntry} {entry : QueueEntry}
    (hqueue : (queue.queue : Multiset QueueEntry) + (dropped : Multiset QueueEntry) = n.queue.queue + ([entry] : List QueueEntry)) :
    ((({ n with queue } : Node).log (dropped.map .dropped)).log [.accepted entry]).NoneVanishes := by
  have haccounted := @accounted_drop n queue dropped
  have haccepted := @accepted_drop n queue dropped
  have hreturned := fun dst waiting => @mem_drop n dst queue dropped waiting
  generalize ({ n with queue } : Node).log (dropped.map .dropped) = m at haccounted haccepted hreturned ⊢
  refine ⟨?_, fun dst waiting hmem => ?_⟩
  · have hsame : (m.log [.accepted entry]).accounted = m.accounted := by
      rw [Node.accounted, Node.log, filterMap_snoc_none rfl, filterMap_snoc_none rfl]
      rfl
    rw [hsame, haccounted, hqueue, Node.log, filterMap_snoc_some rfl, haccepted, ← Multiset.coe_add, h.accounted, Node.accounted]
    abel
  · rcases List.mem_append.mp hmem with hmem | hmem
    · exact h.returned dst waiting (hreturned dst waiting hmem)
    · cases List.mem_singleton.mp hmem

theorem NoneVanishes.deferredRouteOutput (h : n.NoneVanishes) (p : Packet) (header : Ipv4Header) (ucb ecb : ℕ) :
    Yields (fun e => e = .abort ∨ n.queue.maxLen = 0 ∧ (n.queue.purge n.now).1.queue = []) NoneVanishes
      (n.deferredRouteOutput p header ucb ecb) := by
  unfold Node.deferredRouteOutput
  split
  · exact Or.inr (RequestQueue.enqueue_eq_none_iff.mp ‹_›)
  · rename_i result entry queue dropped henqueue
    have hqueue := RequestQueue.queue_enqueue henqueue
    dsimp only
    split
    · rename_i hresult
      rw [hresult, if_pos rfl] at hqueue
      have haccept := (h.accept hqueue).lookupRoute header.destination
      split
      · exact Yields.mono_error (haccept.sendRequest _) fun e he => Or.inl he
      · exact haccept
    · rename_i hresult
      rw [if_neg hresult, Multiset.coe_nil, add_zero] at hqueue
      exact h.drop hqueue

/-- The timer of a request, up to `SendPacketFromQueue`. -/
theorem NoneVanishes.expired (h : n.NoneVanishes) (dst : Ipv4Address) :
    Yields (· = .abort) (fun r => r.1.NoneVanishes) (n.expired dst) := by
  unfold Node.expired
  dsimp only
  split
  · exact h.lookupRoute dst
  split
  · exact (h.lookupRoute dst).giveUp dst
  split
  · exact ((h.lookupRoute dst).sendRequest dst).map fun n' hn' => hn'
  · exact (h.lookupRoute dst).giveUp dst

/-- **A step loses no packet** up to `SendPacketFromQueue`, if it does not break an empty queue of length 0. -/
theorem NoneVanishes.act (h : n.NoneVanishes) {s : Step}
    (hroom : ∀ p header ucb ecb, s = .deferredRouteOutput p header ucb ecb → n.queue.maxLen = 0 → (n.queue.purge n.now).1.queue ≠ []) :
    Yields (· = .abort) (fun r => r.1.NoneVanishes) (n.act s) := by
  cases s with
  | wait t => exact h.congr rfl rfl
  | setTag object oif => exact h.congr rfl rfl
  | setMaxQueueLen len => exact h.congr rfl rfl
  | setMaxQueueTime t => exact h.congr rfl rfl
  | deferredRouteOutput p header ucb ecb =>
    refine Yields.map ((h.deferredRouteOutput p header ucb ecb).mono_error fun e he => ?_) fun n' hn' => hn'
    exact he.resolve_right fun hempty => hroom p header ucb ecb rfl hempty.1 hempty.2
  | sendRequest dst =>
    rw [Node.act]
    split
    · have hdeferred : ({ n with deferred := n.deferred.erase dst } : Node).NoneVanishes := h.congr rfl rfl
      exact (hdeferred.sendRequest dst).map fun n' hn' => hn'
    · exact h
  | rreqRateLimitTimerExpire => exact h.congr rfl rfl
  | routeRequestTimerExpire dst =>
    rw [Node.act]
    split
    · have htimer : ({ n with addressReqTimer := n.addressReqTimer.erase dst } : Node).NoneVanishes := h.congr rfl rfl
      exact htimer.expired dst
    · exact h
  | recvReply rrep receiver sender => exact (h.updateRouteToNeighbor sender receiver).replied rrep receiver sender

/-! ## Packets with a route -/

theorem bound_iff : n.bound dst route = true ↔
    ∃ e ∈ (n.queue.purge n.now).1.queue, e.isFor dst = true ∧ n.mismatch route e.packet = true := by
  rw [bound, List.any_eq_true]
  refine exists_congr fun e => ?_
  rw [RequestQueue.mem_purge, Bool.and_eq_true, Bool.and_eq_true, Bool.not_eq_true']
  tauto

section Round

variable {e : QueueEntry} {queue : RequestQueue} {dropped : List QueueEntry}

section

variable (hd : n.queue.dequeue n.now dst = (some e, queue, dropped))

include hd

theorem mem_of_dequeue (e' : QueueEntry) : e' ∈ (n.queue.purge n.now).1.queue ↔ e' = e ∨ e' ∈ queue.queue := by
  have hperm := (RequestQueue.dequeue_some (show (n.queue.dequeue n.now dst).1 = some e by rw [hd])).2
  rw [hperm.mem_iff, hd, List.mem_cons]

theorem isFor_of_dequeue : e.isFor dst = true :=
  (RequestQueue.dequeue_some (show (n.queue.dequeue n.now dst).1 = some e by rw [hd])).1

theorem accounted_dequeue : {e} + (queue.queue : Multiset QueueEntry) + (dropped : Multiset QueueEntry) = n.queue.queue := by
  have hqueue := @RequestQueue.queue_dequeue n.queue n.now dst
  rw [hd] at hqueue
  exact hqueue

theorem accounted_forward : (n.forward e route queue dropped).accounted = n.accounted := by
  have haccounted := @accounted_drop { n with tag := Function.update n.tag e.packet.object none } queue dropped
  have hlog : ∀ (m : Node) (header : Ipv4Header), (m.log [.forwarded e route header]).accounted = m.accounted + {e} := by
    intro m header
    rw [Node.accounted, Node.log, filterMap_snoc_some rfl, filterMap_snoc_none rfl, ← Multiset.coe_add, Node.accounted]
    exact add_right_comm _ _ _ |>.trans (by abel)
  refine (hlog _ _).trans ?_
  rw [haccounted, Node.accounted, ← accounted_dequeue hd]
  abel

end

theorem accepted_forward : (n.forward e route queue dropped).events.filterMap Event.acceptedOf = n.events.filterMap Event.acceptedOf := by
  rw [forward, Node.log, filterMap_snoc_none rfl]
  exact accepted_drop (n := { n with tag := Function.update n.tag e.packet.object none })

theorem NoneVanishes.forward (h : n.NoneVanishes) (hd : n.queue.dequeue n.now dst = (some e, queue, dropped)) :
    (n.forward e route queue dropped).NoneVanishes := by
  refine ⟨?_, fun dst waiting hmem => ?_⟩
  · rw [accepted_forward, accounted_forward hd, h.accounted]
  · rcases List.mem_append.mp hmem with hmem | hmem
    · exact h.returned dst waiting (mem_drop (n := { n with tag := Function.update n.tag e.packet.object none }) hmem)
    · cases List.mem_singleton.mp hmem

theorem mismatch_forward (p : Packet) :
    (n.forward e route queue dropped).mismatch route p = if p.object = e.packet.object then false else n.mismatch route p := by
  unfold mismatch
  show (Function.update n.tag e.packet.object none p.object).any _ = _
  by_cases hp : p.object = e.packet.object
  · rw [hp, Function.update_self, if_pos rfl, Option.any_none]
  · rw [Function.update_of_ne hp, if_neg hp]
    rfl

theorem bound_forward (hd : n.queue.dequeue n.now dst = (some e, queue, dropped)) (hm : n.mismatch route e.packet = false) :
    (n.forward e route queue dropped).bound dst route = n.bound dst route := by
  have hmem : ∀ e', e' ∈ ((n.forward e route queue dropped).queue.purge (n.forward e route queue dropped).now).1.queue ↔
      e' ∈ queue.queue ∧ e'.isExpired n.now = false := fun e' => RequestQueue.mem_purge
  rw [Bool.eq_iff_iff, bound_iff, bound_iff]
  constructor
  · rintro ⟨e', he', hfor, hbound⟩
    rw [mismatch_forward] at hbound
    split at hbound
    · cases hbound
    · exact ⟨e', (mem_of_dequeue hd e').mpr (Or.inr ((hmem e').mp he').1), hfor, hbound⟩
  · rintro ⟨e', he', hfor, hbound⟩
    have hexpired := (RequestQueue.mem_purge.mp he').2
    rcases (mem_of_dequeue hd e').mp he' with rfl | hqueue
    · rw [hm] at hbound
      cases hbound
    · refine ⟨e', (hmem e').mpr ⟨hqueue, hexpired⟩, hfor, ?_⟩
      rw [mismatch_forward, if_neg]
      · exact hbound
      · -- a packet in two entries has one tag
        intro hobject
        unfold mismatch at hm hbound
        rw [hobject, hm] at hbound
        cases hbound

end Round

/-- **The loop forwards every packet** for the destination, if none is bound to another interface. -/
theorem NoneVanishes.sendLoop {fuel : ℕ} {m : Node} (h : n.NoneVanishes) (hbound : n.bound dst route = false)
    (hm : Node.sendLoop dst route fuel n = some m) : m.NoneVanishes ∧ ∀ e ∈ m.queue.queue, e.isFor dst = false := by
  induction fuel generalizing n with
  | zero => cases hm
  | succ fuel ih =>
    cases hd : n.queue.dequeue n.now dst with
    | mk taken r =>
      obtain ⟨queue, dropped⟩ := r
      cases taken with
      | none =>
        rw [sendLoop_of_none hd] at hm
        obtain rfl := Option.some.inj hm
        have hnone := RequestQueue.isFor_of_dequeue_none (show (n.queue.dequeue n.now dst).1 = none by rw [hd])
        have hqueue := @RequestQueue.queue_dequeue n.queue n.now dst
        rw [hd] at hnone hqueue
        rw [Option.toList_none, Multiset.coe_nil, zero_add] at hqueue
        exact ⟨h.drop hqueue, hnone⟩
      | some e =>
        have hmatch : n.mismatch route e.packet = false := by
          by_contra hm
          rw [Bool.not_eq_false] at hm
          have := bound_iff.mpr ⟨e, (mem_of_dequeue hd e).mpr (Or.inl rfl), isFor_of_dequeue hd, hm⟩
          rw [hbound] at this
          cases this
        rw [sendLoop_of_match hd hmatch] at hm
        exact ih (h.forward hd) ((bound_forward hd hmatch).trans hbound) hm

theorem lost_of_sendLoop {fuel : ℕ} {m : Node} (hbound : n.bound dst route = true)
    (hm : Node.sendLoop dst route fuel n = some m) :
    m.events.filterMap Event.acceptedOf = n.events.filterMap Event.acceptedOf ∧ ∃ e, m.accounted + {e} = n.accounted := by
  induction fuel generalizing n with
  | zero => cases hm
  | succ fuel ih =>
    cases hd : n.queue.dequeue n.now dst with
    | mk taken r =>
      obtain ⟨queue, dropped⟩ := r
      cases taken with
      | none =>
        -- the bound packet would have been taken
        obtain ⟨e, he, hfor, -⟩ := bound_iff.mp hbound
        have hpurge := RequestQueue.dequeue_none (show (n.queue.dequeue n.now dst).1 = none by rw [hd])
        have hnone := RequestQueue.isFor_of_dequeue_none (show (n.queue.dequeue n.now dst).1 = none by rw [hd])
        rw [hpurge] at hnone
        rw [hnone e he] at hfor
        cases hfor
      | some e =>
        cases hmatch : n.mismatch route e.packet with
        | true =>
          rw [sendLoop_of_mismatch hd hmatch] at hm
          obtain rfl := Option.some.inj hm
          refine ⟨accepted_drop (n := { n with tag := Function.update n.tag e.packet.object none }), e, ?_⟩
          rw [accounted_drop (n := { n with tag := Function.update n.tag e.packet.object none }), Node.accounted, ← accounted_dequeue hd]
          abel
        | false =>
          rw [sendLoop_of_match hd hmatch] at hm
          obtain ⟨haccepted, e', he'⟩ := ih ((bound_forward hd hmatch).trans hbound) hm
          rw [accounted_forward hd] at he'
          rw [accepted_forward] at haccepted
          exact ⟨haccepted, e', he'⟩

theorem accounted_returned (n : Node) (waiting : List QueueEntry) : (n.log [.returned dst waiting]).accounted = n.accounted := by
  rw [Node.accounted, Node.log, filterMap_snoc_none rfl, filterMap_snoc_none rfl]
  rfl

/-- **`SendPacketFromQueue` loses no packet** just when none is bound to another interface. -/
theorem NoneVanishes.sendPacketFromQueue_iff (h : n.NoneVanishes) :
    (n.sendPacketFromQueue dst route).NoneVanishes ↔ n.bound dst route = false := by
  obtain ⟨m, hm, hsend⟩ := sendPacketFromQueue_eq n dst route
  rw [hsend]
  cases hbound : n.bound dst route with
  | false =>
    obtain ⟨hnone, hempty⟩ := h.sendLoop hbound hm
    have hwaiting : (m.queue.queue.filter fun e => e.isFor dst) = [] :=
      List.filter_eq_nil_iff.mpr fun e he => by rw [hempty e he]; exact Bool.false_ne_true
    refine iff_of_true ⟨?_, fun dst' waiting hmem => ?_⟩ rfl
    · rw [accounted_returned, Node.log, filterMap_snoc_none rfl]
      exact hnone.accounted
    · rcases List.mem_append.mp hmem with hmem | hmem
      · exact hnone.returned dst' waiting hmem
      · obtain ⟨-, rfl⟩ := Event.returned.inj (List.mem_singleton.mp hmem)
        exact hwaiting
  | true =>
    refine iff_of_false (fun hnone => ?_) Bool.true_eq_false_eq_False
    obtain ⟨haccepted, e, hlost⟩ := lost_of_sendLoop hbound hm
    have hsame := hnone.accounted
    rw [accounted_returned, Node.log, filterMap_snoc_none rfl, haccepted, h.accounted, ← hlost] at hsame
    exact Multiset.singleton_ne_zero e (add_eq_left.mp hsame)

/-- **One step loses no packet** just when it fits. -/
theorem NoneVanishes.step_iff (h : n.NoneVanishes) (s : Step) : Yields (· = .abort) NoneVanishes (n.step s) ↔ n.Fits s := by
  constructor
  · intro hstep
    refine ⟨fun p header ucb ecb hs hmax hempty => ?_, fun n' dst route hact => ?_⟩
    · subst hs
      have hnone : n.queue.enqueue n.now { packet := p, header, ucb, ecb, expire := n.now + n.now } = none :=
        RequestQueue.enqueue_eq_none_iff.mpr ⟨hmax, hempty⟩
      rw [Node.step, Node.act, Node.deferredRouteOutput, hnone] at hstep
      cases hstep
    · have hroom : Yields (· = .abort) (fun r : Node × _ => r.1.NoneVanishes) (n.act s) := h.act fun p header ucb ecb hs => by
        -- a deferred packet gets no route in the same step
        rw [hs, Node.act] at hact
        cases hout : n.deferredRouteOutput p header ucb ecb with
        | error e =>
          rw [hout] at hact
          cases hact
        | ok m =>
          rw [hout] at hact
          cases hact
      rw [hact] at hroom
      rw [Node.step, hact] at hstep
      exact hroom.sendPacketFromQueue_iff.mp hstep
  · rintro ⟨hroom, hunbound⟩
    have hact := h.act hroom
    rw [Node.step]
    cases hcall : n.act s with
    | error e =>
      rw [hcall] at hact
      exact hact
    | ok r =>
      obtain ⟨n', call⟩ := r
      rw [hcall] at hact
      cases call with
      | none => exact hact
      | some c =>
        obtain ⟨dst, route⟩ := c
        exact hact.sendPacketFromQueue_iff.mpr (hunbound n' dst route hcall)

theorem noneVanishes_start (attributes : Attributes) (interfaces : List Interface) : (start attributes interfaces).NoneVanishes :=
  ⟨rfl, fun _ _ hmem => absurd hmem List.not_mem_nil⟩

/-- **No deferred packet vanishes** in the runs whose steps fit, and in no other. -/
theorem noneVanishes_iff (attributes : Attributes) (interfaces : List Interface) (steps : List Step) :
    (∀ l, l <+: steps → Yields (· = .abort) NoneVanishes ((start attributes interfaces).run l)) ↔
      ∀ l s, l ++ [s] <+: steps → ∀ n, (start attributes interfaces).run l = .ok n → n.Fits s := by
  refine forall_prefix_iff_forall_step (noneVanishes_start attributes interfaces) (fun l s hl => ?_) steps
  cases hrun : (start attributes interfaces).run l with
  | error e =>
    rw [hrun] at hl
    rw [run_append_error s hrun]
    exact iff_of_true hl fun n hn => by cases hn
  | ok n =>
    rw [hrun] at hl
    rw [run_append_singleton s hrun]
    refine (NoneVanishes.step_iff hl s).trans ⟨fun hfits n' hn' => ?_, fun h => h n rfl⟩
    obtain rfl := Except.ok.inj hn'
    exact hfits

/-- A packet to 10.0.2.1 is bound to interface 1, and the reply comes over interface 2: the packet is in no callback and not in the queue. -/
theorem not_noneVanishes : ¬ ∀ attributes interfaces steps, ∀ l, l <+: steps →
    Yields (· = .abort) NoneVanishes ((start attributes interfaces).run l) := by
  intro h
  let steps : List Step := [.setTag 0 (some 1),
    .deferredRouteOutput ⟨0, 7⟩ { source := 0x7f000001, destination := 0x0a000201, ttl := 63 } 0 0,
    .recvReply { hopCount := 1, dst := 0x0a000201, dstSeqno := 1, origin := 0x0a000101, lifeTime := 6000 } ⟨2, 2, 0x0a000101, 0x0a0001ff⟩ 0x0a000102]
  have hend := h {} [⟨1, 1, 0x0a000001, 0x0a0000ff⟩, ⟨2, 2, 0x0a000101, 0x0a0001ff⟩] steps steps (List.prefix_refl _)
  have hcount : ((start {} [⟨1, 1, 0x0a000001, 0x0a0000ff⟩, ⟨2, 2, 0x0a000101, 0x0a0001ff⟩]).run steps).map (fun n =>
      ((n.events.filterMap Event.acceptedOf).length, n.queue.queue.length, (n.events.filterMap Event.forwardedOf).length,
        (n.events.filterMap Event.droppedOf).length)) = .ok (1, 0, 0, 0) := by
    rfl
  generalize (start {} [⟨1, 1, 0x0a000001, 0x0a0000ff⟩, ⟨2, 2, 0x0a000101, 0x0a0001ff⟩]).run steps = r at hend hcount
  cases r with
  | error e => cases hcount
  | ok n =>
    have hcard := congrArg Multiset.card (NoneVanishes.accounted hend)
    obtain ⟨haccepted, hqueue, hforwarded, hdropped⟩ := by simpa only [Except.map, Except.ok.injEq, Prod.mk.injEq] using hcount
    rw [Node.accounted, Multiset.card_add, Multiset.card_add, Multiset.coe_card, Multiset.coe_card, Multiset.coe_card, Multiset.coe_card,
      haccepted, hqueue, hforwarded, hdropped] at hcard
    cases hcard

end Node

end Ns3Ndn.Aodv
