import Mathlib
import Ns3Ndn.Aodv.RoutingTable

/-!
# The request queue of AODV

`aodv/model/aodv-rqueue.cc`: packets wait for a route. Every access first drops the packets whose time has passed, and a full queue drops its
oldest packet for a new one. To drop a packet is to call its error callback.
-/

namespace Ns3Ndn.Aodv

open Internet

/-- `Ptr<const Packet>`: the object, and its uid, which copies share. -/
structure Packet where
  object : ℕ
  uid : UInt64
  deriving DecidableEq, Repr

/-- The part of a header that the queue and its users read and write. -/
structure Ipv4Header where
  source : Ipv4Address
  destination : Ipv4Address
  ttl : UInt8
  deriving DecidableEq, Repr

/-- `QueueEntry`. The callbacks are known by number. -/
structure QueueEntry where
  packet : Packet
  header : Ipv4Header
  ucb : ℕ
  ecb : ℕ
  expire : Time
  deriving DecidableEq, Repr

namespace QueueEntry

variable (e : QueueEntry)

def setExpireTime (now exp : Time) : QueueEntry := { e with expire := exp + now }

def getExpireTime (now : Time) : Time := e.expire - now

/-- `IsExpired` -/
def isExpired (now : Time) : Bool := e.getExpireTime now < 0

def isFor (dst : Ipv4Address) : Bool := e.header.destination == dst

end QueueEntry

structure RequestQueue where
  queue : List QueueEntry := []
  maxLen : UInt32 := 64
  queueTimeout : Time := milliSeconds 30000
  deriving DecidableEq, Repr

namespace RequestQueue

variable (q : RequestQueue) (now : Time) (dst : Ipv4Address)

def purge : RequestQueue × List QueueEntry :=
  ({ q with queue := q.queue.filter fun e => ! e.isExpired now }, q.queue.filter fun e => e.isExpired now)

/-- `Enqueue`: whether the entry is accepted, the entry as it is stored, and the dropped ones. There is no result when the front
of an empty vector is dropped. -/
def enqueue (entry : QueueEntry) : Option (Bool × QueueEntry × RequestQueue × List QueueEntry) :=
  let (q, dropped) := q.purge now
  if q.queue.any fun i => i.packet.uid == entry.packet.uid && i.header.destination == entry.header.destination then
    some (false, entry, q, dropped)
  else
    let entry := entry.setExpireTime now q.queueTimeout
    if q.queue.length = q.maxLen.toNat then
      match q.queue with
      | [] => none
      | front :: rest => some (true, entry, { q with queue := rest ++ [entry] }, dropped ++ [front])
    else some (true, entry, { q with queue := q.queue ++ [entry] }, dropped)

/-- `DropPacketWithDst` -/
def dropPacketWithDst : RequestQueue × List QueueEntry :=
  let (q, dropped) := q.purge now
  ({ q with queue := q.queue.filter fun e => ! e.isFor dst }, dropped ++ q.queue.filter fun e => e.isFor dst)

def take : List QueueEntry → Option (QueueEntry × List QueueEntry)
  | [] => none
  | e :: l => if e.isFor dst then some (e, l) else (take l).map fun (e', l') => (e', e :: l')

def dequeue : Option QueueEntry × RequestQueue × List QueueEntry :=
  let (q, dropped) := q.purge now
  match take dst q.queue with
  | some (e, rest) => (some e, { q with queue := rest }, dropped)
  | none => (none, q, dropped)

/-! ## No entry is lost -/

variable {q now dst}

theorem filter_add_filter (l : List QueueEntry) (p : QueueEntry → Bool) :
    (l.filter fun e => ! p e : Multiset QueueEntry) + (l.filter p : Multiset QueueEntry) = (l : Multiset QueueEntry) := by
  rw [add_comm, Multiset.coe_add, Multiset.coe_eq_coe]
  exact List.filter_append_perm p l

theorem queue_purge : ((q.purge now).1.queue : Multiset QueueEntry) + ((q.purge now).2 : Multiset QueueEntry) = q.queue :=
  filter_add_filter q.queue fun e => e.isExpired now

theorem queue_enqueue {entry entry' : QueueEntry} {accepted : Bool} {q' : RequestQueue} {dropped : List QueueEntry}
    (h : q.enqueue now entry = some (accepted, entry', q', dropped)) :
    (q'.queue : Multiset QueueEntry) + (dropped : Multiset QueueEntry) = q.queue + (if accepted then [entry'] else [] : List QueueEntry) := by
  rw [← @queue_purge q now]
  unfold enqueue at h
  generalize q.purge now = r at h
  obtain ⟨p, purged⟩ := r
  simp only at h
  split at h
  · -- the same packet for the same destination waits already
    obtain ⟨rfl, -, rfl, rfl⟩ := by simpa only [Option.some.injEq, Prod.mk.injEq] using h
    exact (add_zero _).symm
  split at h
  · cases hqueue : p.queue with
    | nil =>
      rw [hqueue] at h
      cases h
    | cons front rest =>
      rw [hqueue] at h
      obtain ⟨rfl, rfl, rfl, rfl⟩ := by simpa only [Option.some.injEq, Prod.mk.injEq] using h
      simp only [← Multiset.coe_add, ← Multiset.cons_coe, ← Multiset.singleton_add, if_true, Multiset.coe_nil]
      abel
  · obtain ⟨rfl, rfl, rfl, rfl⟩ := by simpa only [Option.some.injEq, Prod.mk.injEq] using h
    simp only [← Multiset.coe_add, if_true]
    abel

theorem take_perm {l l' : List QueueEntry} {e : QueueEntry} (h : take dst l = some (e, l')) : l.Perm (e :: l') := by
  induction l generalizing l' with
  | nil => cases h
  | cons a l ih =>
    rw [take] at h
    by_cases ha : a.isFor dst
    · rw [if_pos ha] at h
      obtain ⟨rfl, rfl⟩ := Prod.mk.inj (Option.some.inj h)
      exact List.Perm.refl _
    · rw [if_neg ha] at h
      obtain ⟨⟨e', l''⟩, htake, heq⟩ := Option.map_eq_some_iff.mp h
      obtain ⟨rfl, rfl⟩ := Prod.mk.inj heq
      exact ((ih htake).cons a).trans (List.Perm.swap _ _ _)

theorem isFor_of_take {l l' : List QueueEntry} {e : QueueEntry} (h : take dst l = some (e, l')) : e.isFor dst = true := by
  induction l generalizing l' with
  | nil => cases h
  | cons a l ih =>
    rw [take] at h
    by_cases ha : a.isFor dst
    · rw [if_pos ha] at h
      obtain ⟨rfl, -⟩ := Prod.mk.inj (Option.some.inj h)
      exact ha
    · rw [if_neg ha] at h
      obtain ⟨⟨e', l''⟩, htake, heq⟩ := Option.map_eq_some_iff.mp h
      obtain ⟨rfl, -⟩ := Prod.mk.inj heq
      exact ih htake

theorem take_eq_none_iff {l : List QueueEntry} : take dst l = none ↔ ∀ e ∈ l, e.isFor dst = false := by
  induction l with
  | nil => simp [take]
  | cons a l ih =>
    rw [take]
    by_cases ha : a.isFor dst <;> simp [ha, ih]

/-- `Enqueue` takes the front of an empty vector when no packet may wait. -/
theorem enqueue_eq_none_iff {entry : QueueEntry} : q.enqueue now entry = none ↔ q.maxLen = 0 ∧ (q.purge now).1.queue = [] := by
  have hmax : (q.purge now).1.maxLen = q.maxLen := rfl
  unfold enqueue
  generalize q.purge now = r at hmax ⊢
  obtain ⟨p, purged⟩ := r
  simp only at hmax ⊢
  rw [hmax]
  cases hqueue : p.queue with
  | nil =>
    rw [List.any_nil, if_neg Bool.false_ne_true, List.length_nil, ← UInt32.toNat_inj]
    by_cases hzero : q.maxLen.toNat = 0
    · rw [if_pos hzero.symm, hzero]
      exact ⟨fun _ => ⟨rfl, rfl⟩, fun _ => rfl⟩
    · rw [if_neg (Ne.symm hzero)]
      exact iff_of_false (Option.some_ne_none _) fun h => hzero h.1
  | cons front rest =>
    refine iff_of_false ?_ fun h => List.cons_ne_nil _ _ h.2
    split_ifs <;> simp

theorem mem_purge {e : QueueEntry} : e ∈ (q.purge now).1.queue ↔ e ∈ q.queue ∧ e.isExpired now = false := by
  rw [purge, List.mem_filter, Bool.not_eq_true']

theorem queue_dropPacketWithDst : ((q.dropPacketWithDst now dst).1.queue : Multiset QueueEntry) +
    ((q.dropPacketWithDst now dst).2 : Multiset QueueEntry) = q.queue := by
  rw [← @queue_purge q now, ← filter_add_filter (q.purge now).1.queue fun e => e.isFor dst, add_assoc,
    add_comm (_ : Multiset QueueEntry) ((q.purge now).2 : Multiset QueueEntry), Multiset.coe_add]
  rfl

theorem queue_dequeue : ((q.dequeue now dst).1.toList : Multiset QueueEntry) + ((q.dequeue now dst).2.1.queue : Multiset QueueEntry) +
    ((q.dequeue now dst).2.2 : Multiset QueueEntry) = q.queue := by
  rw [← @queue_purge q now]
  unfold dequeue
  generalize q.purge now = r
  obtain ⟨p, purged⟩ := r
  simp only
  cases htake : take dst p.queue with
  | none => rw [Option.toList_none, Multiset.coe_nil, zero_add]
  | some r =>
    obtain ⟨e, rest⟩ := r
    rw [Multiset.coe_eq_coe.mpr (take_perm htake), Option.toList_some, ← Multiset.cons_coe, ← Multiset.singleton_add]
    rfl

theorem dequeue_none (h : (q.dequeue now dst).1 = none) : (q.dequeue now dst).2 = q.purge now := by
  unfold dequeue at h ⊢
  generalize q.purge now = r at h ⊢
  obtain ⟨p, purged⟩ := r
  simp only at h ⊢
  cases htake : take dst p.queue with
  | none => rfl
  | some r =>
    rw [htake] at h
    cases h

theorem isFor_of_dequeue_none (h : (q.dequeue now dst).1 = none) : ∀ e ∈ (q.dequeue now dst).2.1.queue, e.isFor dst = false := by
  unfold dequeue at h ⊢
  generalize q.purge now = r at h ⊢
  obtain ⟨p, purged⟩ := r
  simp only at h ⊢
  cases htake : take dst p.queue with
  | none =>
    rw [htake] at h
    exact take_eq_none_iff.mp htake
  | some r =>
    rw [htake] at h
    cases h

theorem dequeue_some {e : QueueEntry} (h : (q.dequeue now dst).1 = some e) :
    e.isFor dst = true ∧ ((q.purge now).1.queue).Perm (e :: (q.dequeue now dst).2.1.queue) := by
  unfold dequeue at h ⊢
  generalize q.purge now = r at h ⊢
  obtain ⟨p, purged⟩ := r
  simp only at h ⊢
  cases htake : take dst p.queue with
  | none =>
    rw [htake] at h
    cases h
  | some r =>
    obtain ⟨e', rest⟩ := r
    rw [htake] at h
    obtain rfl := Option.some.inj h
    exact ⟨isFor_of_take htake, take_perm htake⟩

theorem length_dequeue_some {e : QueueEntry} (h : (q.dequeue now dst).1 = some e) :
    (q.dequeue now dst).2.1.queue.length < q.queue.length := by
  have hlen := (dequeue_some h).2.length_eq
  have hle : (q.purge now).1.queue.length ≤ q.queue.length := List.length_filter_le _ _
  rw [List.length_cons] at hlen
  omega

end RequestQueue

end Ns3Ndn.Aodv
