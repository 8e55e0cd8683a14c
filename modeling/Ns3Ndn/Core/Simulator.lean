import Ns3Ndn.Core.Scheduler

/-!
# The simulator

`core/model/default-simulator-impl.cc` over any scheduler that behaves as a sorted list. A run is any sequence of
calls: those between two calls of `ProcessOneEvent` are the body of the event that was taken.

Times are 64-bit numbers, and the number of events in the scheduler is a signed 32-bit number.

Four components are not in the code: `scheduled` are the events that were scheduled, `processed` those that
`ProcessOneEvent` took, `invoked` those that were executed, and `calls` the identifiers that were cancelled or
removed.

* **`run_disciplined`**: the discipline of every run whose times and events are in range.
-/

namespace Ns3Ndn

structure Scheduler where
  Store : Type
  create : Store
  insert : Store → Event → Store
  isEmpty : Store → Bool
  removeNext : Store → Event × Store
  remove : Store → Event → Store
  /-- The events that are stored. -/
  events : Store → List Event
  events_create : events create = []
  events_insert : ∀ {s ev}, ListScheduler.Sorted (events s) → ListScheduler.Admits (events s) (.insert ev) →
    events (insert s ev) = ListScheduler.insert (events s) ev
  isEmpty_eq : ∀ {s}, isEmpty s = ListScheduler.isEmpty (events s)
  removeNext_eq : ∀ {s}, ListScheduler.Sorted (events s) → events s ≠ [] →
    (removeNext s).1 = ListScheduler.peekNext (events s)
  events_removeNext : ∀ {s}, ListScheduler.Sorted (events s) → events s ≠ [] →
    events (removeNext s).2 = (events s).tail
  events_remove : ∀ {s ev}, ListScheduler.Sorted (events s) → ev ∈ events s →
    events (remove s ev) = ListScheduler.remove (events s) ev

def listScheduler : Scheduler where
  Store := List Event
  create := []
  insert := ListScheduler.insert
  isEmpty := ListScheduler.isEmpty
  removeNext := ListScheduler.removeNext
  remove := ListScheduler.remove
  events := id
  events_create := rfl
  events_insert _ _ := rfl
  isEmpty_eq := rfl
  removeNext_eq _ _ := rfl
  events_removeNext _ _ := rfl
  events_remove _ _ := rfl

abbrev EventId := Event

/-- A signed 32-bit number. -/
def toInt32 (n : ℤ) : ℤ := n.bmod (2 ^ 32)

theorem toInt32_add_one (n : ℕ) : toInt32 (toInt32 n + 1) = toInt32 (n + 1 : ℕ) := by
  rw [toInt32, toInt32, toInt32, Int.bmod_add_bmod, Nat.cast_add, Nat.cast_one]

theorem toInt32_sub_one (n : ℕ) : toInt32 (toInt32 (n + 1 : ℕ) - 1) = toInt32 n := by
  rw [toInt32, toInt32, toInt32, Int.bmod_sub_bmod, Nat.cast_add, Nat.cast_one, add_sub_cancel_right]

theorem toInt32_eq {n : ℕ} (h : n < 2 ^ 31) : toInt32 n = n := by
  rw [toInt32, Int.bmod_eq_of_le] <;> omega

/-- The simulator. `cancelled` are the addresses of the events whose flag is set, and `nImpls` is the next free
address. -/
structure Simulator where
  scheduler : Scheduler := listScheduler
  events : scheduler.Store
  uid : ℕ := 4
  currentUid : ℕ := 0
  currentTs : ℕ := 0
  currentContext : ℕ := 0xffffffff
  unscheduledEvents : ℤ := 0
  destroyEvents : List EventId := []
  cancelled : List ℕ := []
  nImpls : ℕ := 1
  scheduled : List Event := []
  destroyIds : List EventId := []
  processed : List Event := []
  invoked : List Event := []
  calls : List EventId := []

/-- A call. -/
inductive SimulatorOp where
  | schedule (delay : ℕ)
  | scheduleWithContext (context delay : ℕ)
  | scheduleNow
  | scheduleDestroy
  | cancel (id : EventId)
  | remove (id : EventId)
  | setScheduler (scheduler : Scheduler)
  | processOneEvent

namespace Simulator

variable (s : Simulator)

def pending : List Event := s.scheduler.events s.events

def newEvent (ts context : ℕ) : Event := ⟨s.nImpls, ⟨ts, s.uid, context⟩⟩

/-- The common part of the functions that schedule an event. -/
def insertEvent (ts context : ℕ) : Simulator :=
  { s with
    events := s.scheduler.insert s.events (s.newEvent ts context)
    uid := (s.uid + 1) % 2 ^ 32
    unscheduledEvents := toInt32 (s.unscheduledEvents + 1)
    nImpls := s.nImpls + 1
    scheduled := s.scheduled ++ [s.newEvent ts context] }

/-- `Schedule`. The sum of signed times is that of 64-bit numbers. -/
def schedule (delay : ℕ) : Simulator := s.insertEvent ((delay + s.currentTs) % 2 ^ 64) s.currentContext

def scheduleWithContext (context delay : ℕ) : Simulator :=
  s.insertEvent ((delay + s.currentTs) % 2 ^ 64) context

def scheduleNow : Simulator := s.insertEvent s.currentTs s.currentContext

/-- The identifier of the next event for the end of the simulation. -/
def newDestroyId : EventId := ⟨s.nImpls, ⟨s.currentTs, 2, 0xffffffff⟩⟩

def scheduleDestroy : Simulator :=
  { s with
    destroyEvents := s.destroyEvents ++ [s.newDestroyId]
    uid := (s.uid + 1) % 2 ^ 32
    nImpls := s.nImpls + 1
    destroyIds := s.destroyIds ++ [s.newDestroyId] }

def isExpired (id : EventId) : Bool :=
  if id.key.uid = 2 then
    if id.impl = 0 ∨ id.impl ∈ s.cancelled then true
    else ! s.destroyEvents.contains id
  else
    id.impl = 0 ∨ id.key.ts < s.currentTs ∨ (id.key.ts = s.currentTs ∧ id.key.uid ≤ s.currentUid) ∨
      id.impl ∈ s.cancelled

/-- The part of `Remove` after the call is recorded. -/
def removeEvent (id : EventId) : Simulator :=
  if id.key.uid = 2 then { s with destroyEvents := s.destroyEvents.erase id }
  else if s.isExpired id then s
  else
    { s with
      events := s.scheduler.remove s.events id
      cancelled := id.impl :: s.cancelled
      unscheduledEvents := toInt32 (s.unscheduledEvents - 1) }

def remove (id : EventId) : Simulator := { s.removeEvent id with calls := id :: s.calls }

def cancel (id : EventId) : Simulator :=
  { s with
    cancelled := if s.isExpired id then s.cancelled else id.impl :: s.cancelled
    calls := id :: s.calls }

/-- The loop of `SetScheduler`. -/
def moveEvents (old new : Scheduler) : (fuel : ℕ) → old.Store → new.Store → new.Store
  | 0, _, target => target
  | fuel + 1, source, target =>
    if old.isEmpty source then target
    else
      let (next, source) := old.removeNext source
      moveEvents old new fuel source (new.insert target next)

def setScheduler (scheduler : Scheduler) : Simulator :=
  { s with
    scheduler := scheduler
    events := moveEvents s.scheduler scheduler s.pending.length s.events scheduler.create }

def processOneEvent : Simulator :=
  if s.scheduler.isEmpty s.events then s
  else
    let (next, events) := s.scheduler.removeNext s.events
    { s with
      events := events
      unscheduledEvents := toInt32 (s.unscheduledEvents - 1)
      currentTs := next.key.ts
      currentContext := next.key.context
      currentUid := next.key.uid
      processed := s.processed ++ [next]
      invoked := if next.impl ∈ s.cancelled then s.invoked else s.invoked ++ [next] }

/-- One call. -/
def step (s : Simulator) : SimulatorOp → Simulator
  | .schedule delay => s.schedule delay
  | .scheduleWithContext context delay => s.scheduleWithContext context delay
  | .scheduleNow => s.scheduleNow
  | .scheduleDestroy => s.scheduleDestroy
  | .cancel id => s.cancel id
  | .remove id => s.remove id
  | .setScheduler scheduler => s.setScheduler scheduler
  | .processOneEvent => s.processOneEvent

def run (ops : List SimulatorOp) : Simulator := ops.foldl step { events := [] }

theorem run_concat (ops : List SimulatorOp) (op : SimulatorOp) : run (ops ++ [op]) = (run ops).step op := by
  rw [run, List.foldl_append]
  rfl

/-! ## Which runs there are -/

/-- A call that takes a number for an event. -/
def schedules : SimulatorOp → Bool
  | .schedule _ | .scheduleWithContext _ _ | .scheduleNow | .scheduleDestroy => true
  | _ => false

/-- The identifiers that were given out. -/
def Known (s : Simulator) (id : EventId) : Prop := id ∈ s.scheduled ∨ id ∈ s.destroyIds

/-- Only identifiers of events that were scheduled are cancelled or removed. -/
def Knows (s : Simulator) : SimulatorOp → Prop
  | .cancel id | .remove id => s.Known id
  | _ => True

instance (s : Simulator) (id : EventId) : Decidable (s.Known id) :=
  inferInstanceAs (Decidable (id ∈ s.scheduled ∨ id ∈ s.destroyIds))

instance (s : Simulator) (op : SimulatorOp) : Decidable (s.Knows op) :=
  match op with
  | .cancel id | .remove id => inferInstanceAs (Decidable (s.Known id))
  | .schedule _ | .scheduleWithContext _ _ | .scheduleNow | .scheduleDestroy | .setScheduler _ | .processOneEvent =>
    inferInstanceAs (Decidable True)

def InTime (s : Simulator) : SimulatorOp → Prop
  | .schedule delay | .scheduleWithContext _ delay => delay + s.currentTs < 2 ^ 63
  | _ => True

instance (s : Simulator) (op : SimulatorOp) : Decidable (s.InTime op) :=
  match op with
  | .schedule delay | .scheduleWithContext _ delay => inferInstanceAs (Decidable (delay + s.currentTs < 2 ^ 63))
  | .scheduleNow | .scheduleDestroy | .cancel _ | .remove _ | .setScheduler _ | .processOneEvent =>
    inferInstanceAs (Decidable True)

/-- The programs of the simulator: delays are not negative, identifiers come from earlier calls, and fewer than
`2 ^ 32 - 4` events are scheduled. -/
structure Program (ops : List SimulatorOp) : Prop where
  knows : ∀ pre op, pre ++ [op] <+: ops → (run pre).Knows op
  count : ops.countP schedules < 2 ^ 32 - 4

/-- **The state of a disciplined simulator.** -/
structure Disciplined (s : Simulator) : Prop where
  /-- Events are executed in increasing order of time and number. -/
  order : s.processed.Pairwise fun a b => a.rank < b.rank
  /-- Each of them was scheduled, and the numbers follow the order of scheduling. -/
  scheduled : ∀ e ∈ s.processed, e ∈ s.scheduled
  numbers : s.scheduled.Pairwise fun a b => a.key.uid < b.key.uid
  /-- No event is executed twice. -/
  once : s.invoked.Sublist s.processed
  /-- No event in the scheduler is in the past. -/
  future : ∀ e ∈ s.pending, s.currentTs ≤ e.key.ts
  /-- The number of events in the scheduler, if it is a signed 32-bit number. -/
  count : s.pending.length < 2 ^ 31 → s.unscheduledEvents = s.pending.length
  /-- An event is expired when it has been executed, cancelled or removed. -/
  isExpired : ∀ id, s.Known id → (s.isExpired id = true ↔ id ∈ s.invoked ∨ id ∈ s.calls)

/-! ## The effects on the scheduler -/

theorem insert_eq_concat {events : List Event} {ev : Event} (h : ∀ e ∈ events, e.rank < ev.rank) :
    ListScheduler.insert events ev = events ++ [ev] := by
  induction events with
  | nil => rfl
  | cons e events ih =>
    have hlt : ¬ ev.key.lt e.key = true := by
      rw [EventKey.lt_iff]
      exact (h e List.mem_cons_self).le.not_gt
    rw [ListScheduler.insert, if_neg hlt, ih fun a ha => h a (List.mem_cons_of_mem e ha)]
    rfl

/-- **Moving the events keeps them.** -/
theorem events_moveEvents (old new : Scheduler) (fuel : ℕ) (source : old.Store) (target : new.Store)
    (hfuel : (old.events source).length ≤ fuel)
    (h : ListScheduler.Sorted (new.events target ++ old.events source)) :
    new.events (moveEvents old new fuel source target) = new.events target ++ old.events source := by
  induction fuel generalizing source target with
  | zero =>
    have hnil : old.events source = [] := List.eq_nil_of_length_eq_zero (Nat.le_zero.mp hfuel)
    rw [moveEvents, hnil, List.append_nil]
  | succ fuel ih =>
    rw [moveEvents, old.isEmpty_eq]
    cases hsource : old.events source with
    | nil => simp [ListScheduler.isEmpty]
    | cons e events =>
      rw [hsource] at h hfuel
      have hold : ListScheduler.Sorted (old.events source) := by
        rw [hsource]
        exact ⟨h.rank.sublist (List.sublist_append_right _ _), h.uid.sublist ((List.sublist_append_right _ _).map _)⟩
      have hnew : ListScheduler.Sorted (new.events target) :=
        ⟨h.rank.sublist (List.sublist_append_left _ _), h.uid.sublist ((List.sublist_append_left _ _).map _)⟩
      have hne : old.events source ≠ [] := by simp [hsource]
      have hfst : (old.removeNext source).1 = e := by
        rw [old.removeNext_eq hold hne, hsource]
        rfl
      have hsnd : old.events (old.removeNext source).2 = events := by
        rw [old.events_removeNext hold hne, hsource]
        rfl
      have hless : ∀ a ∈ new.events target, a.rank < e.rank := fun a ha =>
        (List.pairwise_append.mp h.rank).2.2 a ha e List.mem_cons_self
      have hadmits : ListScheduler.Admits (new.events target) (.insert e) := by
        intro a ha huid
        have hmem : a ∈ new.events target ++ e :: events := List.mem_append_left _ ha
        have heq := h.eq_of_uid_eq hmem (List.mem_append_right _ List.mem_cons_self) huid
        exact (hless a ha).ne (by rw [heq])
      have hins : new.events (new.insert target e) = new.events target ++ [e] := by
        rw [new.events_insert hnew hadmits, insert_eq_concat hless]
      simp only [ListScheduler.isEmpty, List.isEmpty_cons, Bool.false_eq_true, if_false, hfst]
      rw [ih, hins, hsnd, List.append_assoc, List.singleton_append]
      · rw [hsnd]
        simpa using hfuel
      · rw [hins, hsnd, List.append_assoc, List.singleton_append]
        exact h

variable {s : Simulator}

theorem pending_setScheduler (h : ListScheduler.Sorted s.pending) (scheduler : Scheduler) :
    (s.setScheduler scheduler).pending = s.pending := by
  have hsorted : ListScheduler.Sorted (scheduler.events scheduler.create ++ s.scheduler.events s.events) := by
    rw [scheduler.events_create]
    exact h
  refine (events_moveEvents s.scheduler scheduler s.pending.length s.events scheduler.create le_rfl hsorted).trans ?_
  rw [scheduler.events_create]
  rfl

theorem pending_insertEvent (h : ListScheduler.Sorted s.pending) (hfresh : ∀ e ∈ s.pending, e.key.uid < s.uid)
    (ts context : ℕ) :
    (s.insertEvent ts context).pending = ListScheduler.insert s.pending (s.newEvent ts context) :=
  s.scheduler.events_insert h fun e he => (hfresh e he).ne

/-- **What `ProcessOneEvent` does.** -/
theorem processOneEvent_eq {e : Event} {rest : List Event} (h : ListScheduler.Sorted s.pending)
    (hpending : s.pending = e :: rest) :
    ∃ events, s.scheduler.events events = rest ∧
      s.processOneEvent =
        { s with
          events := events
          unscheduledEvents := toInt32 (s.unscheduledEvents - 1)
          currentTs := e.key.ts
          currentContext := e.key.context
          currentUid := e.key.uid
          processed := s.processed ++ [e]
          invoked := if e.impl ∈ s.cancelled then s.invoked else s.invoked ++ [e] } := by
  have hne : s.scheduler.events s.events ≠ [] := by
    change s.pending ≠ []
    simp [hpending]
  have hfst : (s.scheduler.removeNext s.events).1 = e := by
    rw [s.scheduler.removeNext_eq h hne]
    change ListScheduler.peekNext s.pending = e
    rw [hpending]
    rfl
  refine ⟨(s.scheduler.removeNext s.events).2, ?_, ?_⟩
  · rw [s.scheduler.events_removeNext h hne]
    change s.pending.tail = rest
    rw [hpending]
    rfl
  · have hempty : s.scheduler.isEmpty s.events = false := by
      rw [s.scheduler.isEmpty_eq]
      change ListScheduler.isEmpty s.pending = false
      rw [hpending]
      rfl
    rw [processOneEvent, hempty]
    simp only [Bool.false_eq_true, if_false, hfst]

theorem processOneEvent_of_nil (hpending : s.pending = []) : s.processOneEvent = s := by
  have hempty : s.scheduler.isEmpty s.events = true := by
    rw [s.scheduler.isEmpty_eq]
    change ListScheduler.isEmpty s.pending = true
    rw [hpending]
    rfl
  rw [processOneEvent, hempty]
  rfl

/-! ## The invariant -/

def now (s : Simulator) : ℕ ×ₗ ℕ := toLex (s.currentTs, s.currentUid)

/-- **The invariant**, after `n` events were scheduled. -/
structure Inv (s : Simulator) (n : ℕ) : Prop where
  sorted : ListScheduler.Sorted s.pending
  uid : s.uid = 4 + n
  currentUid : s.currentUid < s.uid
  later : ∀ e ∈ s.pending, s.now < e.rank
  numbers : s.scheduled.Pairwise fun a b => a.key.uid < b.key.uid
  uids : ∀ e ∈ s.scheduled, 4 ≤ e.key.uid ∧ e.key.uid < s.uid
  destroyUids : ∀ id ∈ s.destroyIds, id.key.uid = 2
  nImpls : 1 ≤ s.nImpls
  impls : ∀ id, s.Known id → 1 ≤ id.impl ∧ id.impl < s.nImpls
  impl_inj : ∀ a b, s.Known a → s.Known b → a.impl = b.impl → a = b
  cancelled_lt : ∀ i ∈ s.cancelled, i < s.nImpls
  calls : ∀ id ∈ s.calls, s.Known id
  pending : ∀ e ∈ s.pending, e ∈ s.scheduled
  processed : ∀ e ∈ s.processed, e ∈ s.scheduled ∧ e.rank ≤ s.now
  order : s.processed.Pairwise fun a b => a.rank < b.rank
  invoked : s.invoked.Sublist s.processed
  /-- A processed event that was not executed was cancelled. -/
  skipped : ∀ e ∈ s.processed, e ∈ s.invoked ∨ e ∈ s.calls
  /-- An event leaves the scheduler when it is processed or removed. -/
  settled : ∀ e ∈ s.scheduled, e ∈ s.pending ∨ e ∈ s.processed ∨ e ∈ s.calls
  /-- Before an event is processed, its flag says whether it was cancelled or removed. -/
  cancelled : ∀ e ∈ s.scheduled, e ∉ s.processed → (e.impl ∈ s.cancelled ↔ e ∈ s.calls)
  destroyEvents : s.destroyEvents.Nodup ∧ ∀ id ∈ s.destroyEvents, id ∈ s.destroyIds
  destroyed : ∀ id ∈ s.destroyIds, id ∈ s.calls ↔ id.impl ∈ s.cancelled ∨ id ∉ s.destroyEvents
  count : s.unscheduledEvents = toInt32 s.pending.length

theorem rank_le_now_iff (s : Simulator) (id : EventId) :
    id.rank ≤ s.now ↔ id.key.ts < s.currentTs ∨ (id.key.ts = s.currentTs ∧ id.key.uid ≤ s.currentUid) := by
  rw [Event.rank, now, Prod.Lex.toLex_le_toLex]

namespace Inv

variable {n : ℕ}

section

variable (h : Inv s n)

include h

variable {id : EventId}

theorem isExpired_iff_of_scheduled (hid : id ∈ s.scheduled) :
    s.isExpired id = true ↔ id.rank ≤ s.now ∨ id.impl ∈ s.cancelled := by
  have huid : id.key.uid ≠ 2 := by
    have := h.uids id hid
    omega
  have himpl : id.impl ≠ 0 := by
    have := h.impls id (.inl hid)
    omega
  rw [isExpired, if_neg huid, rank_le_now_iff, decide_eq_true_eq]
  tauto

/-- **An event is expired** when it has been executed, cancelled or removed. -/
theorem isExpired_iff (hid : s.Known id) : s.isExpired id = true ↔ id ∈ s.invoked ∨ id ∈ s.calls := by
  rcases hid with hid | hid
  · rw [h.isExpired_iff_of_scheduled hid]
    constructor
    · intro hexp
      by_cases hproc : id ∈ s.processed
      · exact h.skipped id hproc
      · rcases hexp with hrank | hcancelled
        · rcases h.settled id hid with hpend | hproc' | hcalls
          · exact absurd (h.later id hpend) hrank.not_gt
          · exact absurd hproc' hproc
          · exact .inr hcalls
        · exact .inr ((h.cancelled id hid hproc).mp hcancelled)
    · intro hdone
      by_cases hproc : id ∈ s.processed
      · exact .inl (h.processed id hproc).2
      · have hcalls : id ∈ s.calls := hdone.resolve_left fun hinv => hproc (h.invoked.subset hinv)
        exact .inr ((h.cancelled id hid hproc).mpr hcalls)
  · have huid := h.destroyUids id hid
    have himpl : id.impl ≠ 0 := by
      have := h.impls id (.inr hid)
      omega
    have hinvoked : id ∉ s.invoked := by
      intro hinv
      have := h.uids id (h.processed id (h.invoked.subset hinv)).1
      omega
    rw [isExpired, if_pos huid, or_iff_right hinvoked, h.destroyed id hid]
    simp [himpl]

theorem disciplined : Disciplined s where
  order := h.order
  scheduled e he := (h.processed e he).1
  numbers := h.numbers
  once := h.invoked
  future e he := by
    have hlater := h.later e he
    rw [now, Event.rank, Prod.Lex.toLex_lt_toLex] at hlater
    omega
  count hlt := h.count.trans (toInt32_eq hlt)
  isExpired id hid := h.isExpired_iff hid

theorem impls_new {new : EventId} (himpl : new.impl = s.nImpls) (hid : s.Known id ∨ id = new) :
    1 ≤ id.impl ∧ id.impl < s.nImpls + 1 := by
  rcases hid with hid | rfl
  · have := h.impls id hid
    omega
  · rw [himpl]
    exact ⟨h.nImpls, Nat.lt_succ_self _⟩

theorem impl_inj_new {a b new : EventId} (himpl : new.impl = s.nImpls) (ha : s.Known a ∨ a = new) (hb : s.Known b ∨ b = new)
    (hab : a.impl = b.impl) : a = b := by
  rcases ha with ha | rfl <;> rcases hb with hb | rfl
  · exact h.impl_inj a b ha hb hab
  · exact absurd (hab.trans himpl) (h.impls a ha).2.ne
  · exact absurd (hab.symm.trans himpl) (h.impls b hb).2.ne
  · rfl

/-- **Scheduling an event keeps the invariant.** -/
theorem insertEvent {ts : ℕ} (context : ℕ) (hts : s.currentTs ≤ ts) (hn : n < 2 ^ 32 - 5) :
    Inv (s.insertEvent ts context) (n + 1) := by
  have huid : (s.insertEvent ts context).uid = s.uid + 1 := by
    change (s.uid + 1) % 2 ^ 32 = s.uid + 1
    rw [h.uid]
    omega
  have hpend := pending_insertEvent h.sorted (fun e he => (h.uids e (h.pending e he)).2) ts context
  have hmem : ∀ e, e ∈ (s.insertEvent ts context).pending ↔ e = s.newEvent ts context ∨ e ∈ s.pending := by
    intro e
    rw [hpend, (ListScheduler.insert_perm _ _).mem_iff, List.mem_cons]
  have hsched : ∀ e, e ∈ (s.insertEvent ts context).scheduled ↔ e ∈ s.scheduled ∨ e = s.newEvent ts context := by
    intro e
    change e ∈ s.scheduled ++ [s.newEvent ts context] ↔ _
    rw [List.mem_append, List.mem_singleton]
  have hknown : ∀ e, (s.insertEvent ts context).Known e ↔ s.Known e ∨ e = s.newEvent ts context := by
    intro e
    rw [Known, Known, hsched]
    exact or_right_comm
  have hnew : ¬ s.Known (s.newEvent ts context) := fun hk => (h.impls _ hk).2.ne rfl
  constructor
  case sorted =>
    have hadmits : ListScheduler.Admits s.pending (.insert (s.newEvent ts context)) :=
      fun e he => (h.uids e (h.pending e he)).2.ne
    rw [hpend]
    exact h.sorted.apply hadmits
  case uid => rw [huid, h.uid, Nat.add_assoc]
  case currentUid =>
    rw [huid]
    exact Nat.lt_succ_of_lt h.currentUid
  case later =>
    intro e he
    rcases (hmem e).mp he with rfl | he
    · change s.now < toLex (ts, s.uid)
      rw [now, Prod.Lex.toLex_lt_toLex]
      have := h.currentUid
      simp only
      omega
    · exact h.later e he
  case numbers =>
    refine List.pairwise_append.mpr ⟨h.numbers, List.pairwise_singleton _ _, fun a ha b hb => ?_⟩
    rw [List.mem_singleton.mp hb]
    exact (h.uids a ha).2
  case uids =>
    intro e he
    rw [huid]
    rcases (hsched e).mp he with he | rfl
    · have := h.uids e he
      omega
    · have := h.uid
      change 4 ≤ s.uid ∧ s.uid < s.uid + 1
      omega
  case destroyUids => exact h.destroyUids
  case nImpls => exact Nat.le_succ_of_le h.nImpls
  case impls => exact fun id hid => h.impls_new rfl ((hknown id).mp hid)
  case impl_inj => exact fun a b ha hb hab => h.impl_inj_new rfl ((hknown a).mp ha) ((hknown b).mp hb) hab
  case cancelled_lt => exact fun i hi => Nat.lt_succ_of_lt (h.cancelled_lt i hi)
  case calls => exact fun id hid => (hknown id).mpr (.inl (h.calls id hid))
  case pending =>
    intro e he
    rcases (hmem e).mp he with he | he
    · exact (hsched e).mpr (.inr he)
    · exact (hsched e).mpr (.inl (h.pending e he))
  case processed => exact fun e he => ⟨(hsched e).mpr (.inl (h.processed e he).1), (h.processed e he).2⟩
  case order => exact h.order
  case invoked => exact h.invoked
  case skipped => exact h.skipped
  case settled =>
    intro e he
    rcases (hsched e).mp he with he | he
    · rcases h.settled e he with he | he
      · exact .inl ((hmem e).mpr (.inr he))
      · exact .inr he
    · exact .inl ((hmem e).mpr (.inl he))
  case cancelled =>
    intro e he hproc
    rcases (hsched e).mp he with he | rfl
    · exact h.cancelled e he hproc
    · constructor
      · intro hc
        exact absurd rfl (h.cancelled_lt _ hc).ne
      · intro hc
        exact absurd (h.calls _ hc) hnew
  case destroyEvents => exact h.destroyEvents
  case destroyed => exact h.destroyed
  case count =>
    rw [hpend, (ListScheduler.insert_perm _ _).length_eq]
    change toInt32 (s.unscheduledEvents + 1) = _
    rw [h.count, List.length_cons]
    exact toInt32_add_one _

/-- **An event for the end of the simulation keeps the invariant.** -/
theorem scheduleDestroy (hn : n < 2 ^ 32 - 5) : Inv s.scheduleDestroy (n + 1) := by
  have huid : s.scheduleDestroy.uid = s.uid + 1 := by
    change (s.uid + 1) % 2 ^ 32 = s.uid + 1
    rw [h.uid]
    omega
  have hids : ∀ id, id ∈ s.scheduleDestroy.destroyIds ↔ id ∈ s.destroyIds ∨ id = s.newDestroyId := by
    intro id
    change id ∈ s.destroyIds ++ [s.newDestroyId] ↔ _
    rw [List.mem_append, List.mem_singleton]
  have hevents : ∀ id, id ∈ s.scheduleDestroy.destroyEvents ↔ id ∈ s.destroyEvents ∨ id = s.newDestroyId := by
    intro id
    change id ∈ s.destroyEvents ++ [s.newDestroyId] ↔ _
    rw [List.mem_append, List.mem_singleton]
  have hknown : ∀ e, s.scheduleDestroy.Known e ↔ s.Known e ∨ e = s.newDestroyId := by
    intro e
    rw [Known, Known, hids]
    exact or_assoc.symm
  have hnew : ¬ s.Known s.newDestroyId := fun hk => (h.impls _ hk).2.ne rfl
  refine { h with
    uid := ?uid, currentUid := ?currentUid, uids := ?uids, destroyUids := ?destroyUids, nImpls := ?nImpls, impls := ?impls,
    impl_inj := ?impl_inj, cancelled_lt := ?cancelled_lt, calls := ?calls, destroyEvents := ?destroyEvents,
    destroyed := ?destroyed }
  case uid => rw [huid, h.uid, Nat.add_assoc]
  case currentUid =>
    rw [huid]
    exact Nat.lt_succ_of_lt h.currentUid
  case uids =>
    intro e he
    rw [huid]
    have := h.uids e he
    omega
  case destroyUids =>
    intro id hid
    rcases (hids id).mp hid with hid | rfl
    · exact h.destroyUids id hid
    · rfl
  case nImpls => exact Nat.le_succ_of_le h.nImpls
  case impls => exact fun id hid => h.impls_new rfl ((hknown id).mp hid)
  case impl_inj => exact fun a b ha hb hab => h.impl_inj_new rfl ((hknown a).mp ha) ((hknown b).mp hb) hab
  case cancelled_lt => exact fun i hi => Nat.lt_succ_of_lt (h.cancelled_lt i hi)
  case calls => exact fun id hid => (hknown id).mpr (.inl (h.calls id hid))
  case destroyEvents =>
    refine ⟨h.destroyEvents.1.append (List.nodup_singleton _) fun id hid hid' => ?_, fun id hid => ?_⟩
    · rw [List.mem_singleton.mp hid'] at hid
      exact hnew (.inr (h.destroyEvents.2 _ hid))
    · rcases (hevents id).mp hid with hid | rfl
      · exact (hids id).mpr (.inl (h.destroyEvents.2 id hid))
      · exact (hids _).mpr (.inr rfl)
  case destroyed =>
    intro id hid
    rw [hevents]
    rcases (hids id).mp hid with hid | rfl
    · have hne : id ≠ s.newDestroyId := by
        rintro rfl
        exact hnew (.inr hid)
      rw [or_iff_left hne]
      exact h.destroyed id hid
    · constructor
      · intro hc
        exact absurd (h.calls _ hc) hnew
      · rintro (hc | hc)
        · exact absurd rfl (h.cancelled_lt _ hc).ne
        · exact absurd (.inr rfl) hc

/-- The common part of the calls for an event: it may leave the scheduler or the list of the events for the end of the
simulation, and its flag may be set. -/
theorem call (hid : s.Known id) {events : s.scheduler.Store} {cancelled : List ℕ} {destroyEvents : List EventId}
    {unscheduledEvents : ℤ} (hsub : (s.scheduler.events events).Sublist s.pending)
    (hkeeps : ∀ e ∈ s.pending, e ∈ s.scheduler.events events ∨ e = id) (hlt : ∀ i ∈ cancelled, i < s.nImpls)
    (hcancelled : ∀ e ∈ s.scheduled, e ∉ s.processed → (e.impl ∈ cancelled ↔ e ∈ id :: s.calls))
    (hdestroy : destroyEvents.Sublist s.destroyEvents)
    (hdestroyed : ∀ e ∈ s.destroyIds, e ∈ id :: s.calls ↔ e.impl ∈ cancelled ∨ e ∉ destroyEvents)
    (hcount : unscheduledEvents = toInt32 (s.scheduler.events events).length) :
    Inv { s with
      events := events
      cancelled := cancelled
      destroyEvents := destroyEvents
      unscheduledEvents := unscheduledEvents
      calls := id :: s.calls } n := by
  refine { h with
    sorted := ?sorted, later := ?later, cancelled_lt := ?cancelled_lt, calls := ?calls, pending := ?pending,
    skipped := ?skipped, settled := ?settled, cancelled := ?cancelled, destroyEvents := ?destroyEvents,
    destroyed := ?destroyed, count := ?count }
  case sorted => exact ⟨h.sorted.rank.sublist hsub, h.sorted.uid.sublist (hsub.map _)⟩
  case later => exact fun e he => h.later e (hsub.subset he)
  case cancelled_lt => exact hlt
  case calls =>
    intro e he
    rcases List.mem_cons.mp he with rfl | he
    · exact hid
    · exact h.calls e he
  case pending => exact fun e he => h.pending e (hsub.subset he)
  case skipped => exact fun e he => (h.skipped e he).imp_right (List.mem_cons_of_mem id)
  case settled =>
    intro e he
    rcases h.settled e he with he | he | he
    · rcases hkeeps e he with he | rfl
      · exact .inl he
      · exact .inr (.inr List.mem_cons_self)
    · exact .inr (.inl he)
    · exact .inr (.inr (List.mem_cons_of_mem id he))
  case cancelled => exact hcancelled
  case destroyEvents => exact ⟨h.destroyEvents.1.sublist hdestroy, fun e he => h.destroyEvents.2 e (hdestroy.subset he)⟩
  case destroyed => exact hdestroyed
  case count => exact hcount

theorem not_mem_processed (hid : id ∈ s.destroyIds) : id ∉ s.processed := by
  intro hproc
  have := h.uids id (h.processed id hproc).1
  have := h.destroyUids id hid
  omega

/-- **A call for an event that is expired** changes nothing but the record of calls. -/
theorem record (hid : s.Known id) (hexp : s.isExpired id = true) : Inv { s with calls := id :: s.calls } n := by
  have hdone := (h.isExpired_iff hid).mp hexp
  have hcalls : ∀ e, e ∉ s.processed → (e ∈ id :: s.calls ↔ e ∈ s.calls) := by
    intro e hproc
    rw [List.mem_cons]
    refine or_iff_right_of_imp ?_
    rintro rfl
    exact hdone.resolve_left fun hinv => hproc (h.invoked.subset hinv)
  refine h.call hid (List.Sublist.refl _) (fun e he => .inl he) h.cancelled_lt (fun e he hproc => ?_)
    (List.Sublist.refl _) (fun e he => ?_) h.count
  · rw [hcalls e hproc]
    exact h.cancelled e he hproc
  · rw [hcalls e (h.not_mem_processed he)]
    exact h.destroyed e he

theorem mem_cancelled_cons {id e : EventId} (hid : s.Known id) (he : s.Known e) :
    e.impl ∈ id.impl :: s.cancelled ↔ e = id ∨ e.impl ∈ s.cancelled := by
  rw [List.mem_cons]
  refine or_congr_left ⟨h.impl_inj e id he hid, ?_⟩
  rintro rfl
  rfl

theorem lt_nImpls_of_mem_cons (hid : s.Known id) {i : ℕ} (hi : i ∈ id.impl :: s.cancelled) : i < s.nImpls := by
  rcases List.mem_cons.mp hi with rfl | hi
  · exact (h.impls id hid).2
  · exact h.cancelled_lt i hi

theorem cancelled_cons (hid : s.Known id) {e : Event} (he : e ∈ s.scheduled) (hproc : e ∉ s.processed) :
    e.impl ∈ id.impl :: s.cancelled ↔ e ∈ id :: s.calls := by
  rw [h.mem_cancelled_cons hid (.inl he), List.mem_cons, h.cancelled e he hproc]

theorem destroyed_cons (hid : s.Known id) {e : EventId} (he : e ∈ s.destroyIds) :
    e ∈ id :: s.calls ↔ e.impl ∈ id.impl :: s.cancelled ∨ e ∉ s.destroyEvents := by
  rw [h.mem_cancelled_cons hid (.inr he), List.mem_cons, h.destroyed e he, or_assoc]

theorem cancel (hid : s.Known id) : Inv (s.cancel id) n := by
  rw [Simulator.cancel]
  split_ifs with hexp
  · exact h.record hid hexp
  · exact h.call hid (List.Sublist.refl _) (fun e he => .inl he) (fun _ => h.lt_nImpls_of_mem_cons hid)
      (fun e he => h.cancelled_cons hid he) (List.Sublist.refl _) (fun e he => h.destroyed_cons hid he) h.count

theorem mem_pending (hid : id ∈ s.scheduled) (hexp : s.isExpired id = false) : id ∈ s.pending := by
  have hnot : ¬ (id ∈ s.invoked ∨ id ∈ s.calls) := by
    rw [← h.isExpired_iff (.inl hid), hexp]
    exact Bool.false_ne_true
  rcases h.settled id hid with hpend | hproc | hcalls
  · exact hpend
  · exact absurd (h.skipped id hproc) hnot
  · exact absurd (.inr hcalls) hnot

theorem remove (hid : s.Known id) : Inv (s.remove id) n := by
  rw [Simulator.remove, removeEvent]
  by_cases huid : id.key.uid = 2
  · have hmem : id ∈ s.destroyIds := by
      refine hid.resolve_left fun hsched => ?_
      have := h.uids id hsched
      omega
    rw [if_pos huid]
    refine h.call hid (List.Sublist.refl _) (fun e he => .inl he) h.cancelled_lt (fun e he hproc => ?_)
      List.erase_sublist (fun e he => ?_) h.count
    · have hne : e ≠ id := by
        rintro rfl
        have := h.uids e he
        omega
      rw [List.mem_cons, or_iff_right hne]
      exact h.cancelled e he hproc
    · rw [List.mem_cons, h.destroyed e he, h.destroyEvents.1.mem_erase_iff]
      tauto
  · have hmem : id ∈ s.scheduled := hid.resolve_right fun hdestroy => huid (h.destroyUids id hdestroy)
    rw [if_neg huid]
    cases hexp : s.isExpired id with
    | true => exact h.record hid hexp
    | false =>
      rw [if_neg Bool.false_ne_true]
      have hpend := h.mem_pending hmem hexp
      have hevents : s.scheduler.events (s.scheduler.remove s.events id) = ListScheduler.remove s.pending id :=
        s.scheduler.events_remove h.sorted hpend
      have hperm := ListScheduler.remove_perm hpend h.sorted.uid
      refine h.call hid ?_ (fun e he => ?_) (fun _ => h.lt_nImpls_of_mem_cons hid)
        (fun e he => h.cancelled_cons hid he) (List.Sublist.refl _) (fun e he => h.destroyed_cons hid he) ?_
      · rw [hevents]
        exact List.eraseP_sublist
      · rw [hevents]
        exact (List.mem_cons.mp (hperm.mem_iff.mp he)).symm
      · change toInt32 (s.unscheduledEvents - 1) = _
        rw [hevents, h.count, hperm.length_eq, List.length_cons]
        exact toInt32_sub_one _

theorem setScheduler (scheduler : Scheduler) : Inv (s.setScheduler scheduler) n := by
  have hpend := pending_setScheduler h.sorted scheduler
  refine { h with
    sorted := ?sorted, later := ?later, pending := ?pending, settled := ?settled, count := ?count }
  case sorted => exact hpend ▸ h.sorted
  case later => exact fun e he => h.later e (hpend ▸ he)
  case pending => exact fun e he => h.pending e (hpend ▸ he)
  case settled =>
    intro e he
    rw [hpend]
    exact h.settled e he
  case count =>
    rw [hpend]
    exact h.count

/-- **Taking the next event keeps the invariant.** -/
theorem processOneEvent : Inv s.processOneEvent n := by
  cases hpending : s.pending with
  | nil =>
    rw [processOneEvent_of_nil hpending]
    exact h
  | cons e rest =>
    obtain ⟨events, hevents, heq⟩ := processOneEvent_eq h.sorted hpending
    have hmem : e ∈ s.pending := by
      rw [hpending]
      exact List.mem_cons_self
    have hsub : rest.Sublist s.pending := by
      rw [hpending]
      exact List.sublist_cons_self _ _
    have hsched : e ∈ s.scheduled := h.pending e hmem
    have hnext : ∀ a ∈ rest, e.rank < a.rank := by
      have hrank := h.sorted.rank
      rw [hpending] at hrank
      exact (List.pairwise_cons.mp hrank).1
    have hnot : e ∉ s.processed := fun hproc => (h.later e hmem).not_ge (h.processed e hproc).2
    have hproc : ∀ a, a ∈ s.processed ++ [e] ↔ a ∈ s.processed ∨ a = e := by
      intro a
      rw [List.mem_append, List.mem_singleton]
    rw [heq]
    refine { h with
      sorted := ?sorted, currentUid := ?currentUid, later := ?later, pending := ?pending, processed := ?processed,
      order := ?order, invoked := ?invoked, skipped := ?skipped, settled := ?settled, cancelled := ?cancelled,
      count := ?count }
    case sorted =>
      change ListScheduler.Sorted (s.scheduler.events events)
      rw [hevents]
      exact ⟨h.sorted.rank.sublist hsub, h.sorted.uid.sublist (hsub.map _)⟩
    case currentUid => exact (h.uids e hsched).2
    case later => exact fun a ha => hnext a (hevents ▸ ha)
    case pending => exact fun a ha => h.pending a (hsub.subset (hevents ▸ ha))
    case processed =>
      intro a ha
      rcases (hproc a).mp ha with ha | rfl
      · exact ⟨(h.processed a ha).1, ((h.processed a ha).2.trans_lt (h.later e hmem)).le⟩
      · exact ⟨hsched, le_rfl⟩
    case order =>
      refine List.pairwise_append.mpr ⟨h.order, List.pairwise_singleton _ _, fun a ha b hb => ?_⟩
      rw [List.mem_singleton.mp hb]
      exact (h.processed a ha).2.trans_lt (h.later e hmem)
    case invoked =>
      change List.Sublist (if e.impl ∈ s.cancelled then s.invoked else s.invoked ++ [e]) (s.processed ++ [e])
      split_ifs
      · exact h.invoked.trans (List.sublist_append_left _ _)
      · exact h.invoked.append (List.Sublist.refl _)
    case skipped =>
      intro a ha
      change a ∈ (if e.impl ∈ s.cancelled then s.invoked else s.invoked ++ [e]) ∨ a ∈ s.calls
      rcases (hproc a).mp ha with ha | rfl
      · refine (h.skipped a ha).imp_left fun hinv => ?_
        split_ifs
        · exact hinv
        · exact List.mem_append_left _ hinv
      · split_ifs with hc
        · exact .inr ((h.cancelled a hsched hnot).mp hc)
        · exact .inl (List.mem_append_right _ List.mem_cons_self)
    case settled =>
      intro a ha
      change a ∈ s.scheduler.events events ∨ a ∈ s.processed ++ [e] ∨ a ∈ s.calls
      rw [hevents, hproc]
      have hsettled := h.settled a ha
      rw [hpending, List.mem_cons] at hsettled
      tauto
    case cancelled => exact fun a ha hnproc => h.cancelled a ha fun hp => hnproc ((hproc a).mpr (.inl hp))
    case count =>
      change toInt32 (s.unscheduledEvents - 1) = toInt32 (s.scheduler.events events).length
      rw [hevents, h.count, hpending, List.length_cons]
      exact toInt32_sub_one _

end

theorem init : Inv { events := [] } 0 := by
  constructor
  case sorted => exact ⟨List.Pairwise.nil, List.nodup_nil⟩
  case numbers => exact List.Pairwise.nil
  case order => exact List.Pairwise.nil
  case invoked => exact List.Sublist.refl _
  case destroyEvents => exact ⟨List.nodup_nil, fun _ hid => hid⟩
  case count => exact (toInt32_eq (by decide)).symm
  all_goals simp [Known, Simulator.pending, listScheduler]

/-- **One call keeps the invariant.** -/
theorem step (h : Inv s n) {op : SimulatorOp} (hknows : s.Knows op) (htime : s.InTime op)
    (hn : n + (if schedules op then 1 else 0) < 2 ^ 32 - 4) :
    Inv (s.step op) (n + if schedules op then 1 else 0) := by
  -- the last event takes the number `2 ^ 32 - 1`
  have hlast : schedules op = true → n < 2 ^ 32 - 5 := by
    intro hop
    rw [if_pos hop] at hn
    omega
  have hts : ∀ {delay}, delay + s.currentTs < 2 ^ 63 → s.currentTs ≤ (delay + s.currentTs) % 2 ^ 64 := by
    intro delay hdelay
    omega
  cases op with
  | schedule delay => exact h.insertEvent _ (hts htime) (hlast rfl)
  | scheduleWithContext context delay => exact h.insertEvent _ (hts htime) (hlast rfl)
  | scheduleNow => exact h.insertEvent _ le_rfl (hlast rfl)
  | scheduleDestroy => exact h.scheduleDestroy (hlast rfl)
  | cancel id => exact h.cancel hknows
  | remove id => exact h.remove hknows
  | setScheduler scheduler => exact h.setScheduler scheduler
  | processOneEvent => exact h.processOneEvent

theorem currentTs_step (h : Inv s n) (op : SimulatorOp) : s.currentTs ≤ (s.step op).currentTs := by
  cases op with
  | processOneEvent =>
    cases hpending : s.pending with
    | nil => exact (congrArg Simulator.currentTs (processOneEvent_of_nil hpending)).ge
    | cons e rest =>
      obtain ⟨events, -, heq⟩ := processOneEvent_eq h.sorted hpending
      have hlater := h.later e (hpending ▸ List.mem_cons_self)
      rw [now, Event.rank, Prod.Lex.toLex_lt_toLex] at hlater
      have hle : s.currentTs ≤ e.key.ts := by omega
      change s.currentTs ≤ s.processOneEvent.currentTs
      rw [heq]
      exact hle
  | remove id =>
    change s.currentTs ≤ (s.removeEvent id).currentTs
    rw [removeEvent]
    split_ifs <;> exact le_rfl
  | schedule | scheduleWithContext | scheduleNow | scheduleDestroy | cancel | setScheduler => exact le_rfl

/-- **An event that was cancelled or removed is not executed** by a later call. -/
theorem invoked_step (h : Inv s n) (op : SimulatorOp) {id : EventId} (hid : id ∈ s.calls)
    (hinv : id ∈ (s.step op).invoked) : id ∈ s.invoked := by
  cases op with
  | processOneEvent =>
    change id ∈ s.processOneEvent.invoked at hinv
    cases hpending : s.pending with
    | nil => exact processOneEvent_of_nil hpending ▸ hinv
    | cons e rest =>
      obtain ⟨events, -, heq⟩ := processOneEvent_eq h.sorted hpending
      have hmem : e ∈ s.pending := hpending ▸ List.mem_cons_self
      rw [heq] at hinv
      change id ∈ (if e.impl ∈ s.cancelled then s.invoked else s.invoked ++ [e]) at hinv
      split_ifs at hinv with hc
      · exact hinv
      · rcases List.mem_append.mp hinv with hinv | hinv
        · exact hinv
        · obtain rfl := List.mem_singleton.mp hinv
          have hnot : id ∉ s.processed := fun hproc => (h.later id hmem).not_ge (h.processed id hproc).2
          exact absurd ((h.cancelled id (h.pending id hmem) hnot).mpr hid) hc
  | remove id' =>
    change id ∈ (s.removeEvent id').invoked at hinv
    rw [removeEvent] at hinv
    split_ifs at hinv <;> exact hinv
  | schedule | scheduleWithContext | scheduleNow | scheduleDestroy | cancel | setScheduler => exact hinv

end Inv

theorem calls_step (op : SimulatorOp) {id : EventId} (hid : id ∈ s.calls) : id ∈ (s.step op).calls := by
  cases op with
  | processOneEvent =>
    change id ∈ s.processOneEvent.calls
    rw [processOneEvent]
    split_ifs <;> exact hid
  | remove id' => exact List.mem_cons_of_mem _ hid
  | cancel id' => exact List.mem_cons_of_mem _ hid
  | schedule | scheduleWithContext | scheduleNow | scheduleDestroy | setScheduler => exact hid

/-! ## Whole runs -/

theorem Program.of_isPrefix {pre ops : List SimulatorOp} (h : Program ops) (hpre : pre <+: ops) : Program pre where
  knows pre' op hop := h.knows pre' op (hop.trans hpre)
  count := (hpre.sublist.countP_le).trans_lt h.count

/-- **The invariant holds in every run.** -/
theorem inv_run {ops : List SimulatorOp} (h : Program ops)
    (htime : ∀ pre op, pre ++ [op] <+: ops → (run pre).InTime op) : Inv (run ops) (ops.countP schedules) := by
  induction ops using List.reverseRecOn with
  | nil => exact Inv.init
  | append_singleton ops op ih =>
    have hpre : ops <+: ops ++ [op] := List.prefix_append _ _
    have hinv := ih (h.of_isPrefix hpre) fun pre op' hop => htime pre op' (hop.trans hpre)
    have hcount := h.count
    rw [List.countP_append, List.countP_singleton] at hcount ⊢
    rw [run_concat]
    exact hinv.step (h.knows ops op (List.prefix_refl _)) (htime ops op (List.prefix_refl _)) hcount

/-- What a later state keeps. -/
structure Follows (s s' : Simulator) : Prop where
  currentTs : s.currentTs ≤ s'.currentTs
  calls : ∀ id ∈ s.calls, id ∈ s'.calls
  invoked : ∀ id ∈ s.calls, id ∈ s'.invoked → id ∈ s.invoked

theorem follows_run {pre ops : List SimulatorOp} (h : Program ops)
    (htime : ∀ pre op, pre ++ [op] <+: ops → (run pre).InTime op) (hpre : pre <+: ops) :
    Follows (run pre) (run ops) := by
  induction ops using List.reverseRecOn with
  | nil =>
    rw [List.prefix_nil.mp hpre]
    exact ⟨le_rfl, fun _ hid => hid, fun _ _ hinv => hinv⟩
  | append_singleton ops op ih =>
    rcases List.prefix_concat_iff.mp hpre with rfl | hpre
    · exact ⟨le_rfl, fun _ hid => hid, fun _ _ hinv => hinv⟩
    · have hops : ops <+: ops ++ [op] := List.prefix_append _ _
      have hprog := h.of_isPrefix hops
      have htime' : ∀ pre op', pre ++ [op'] <+: ops → (run pre).InTime op' :=
        fun pre op' hop => htime pre op' (hop.trans hops)
      have hfollows := ih hprog htime' hpre
      have hinv := inv_run hprog htime'
      rw [run_concat]
      exact ⟨hfollows.currentTs.trans (hinv.currentTs_step op), fun id hid => calls_step op (hfollows.calls id hid),
        fun id hid hmem => hfollows.invoked id hid (hinv.invoked_step op (hfollows.calls id hid) hmem)⟩

/-- **The discipline of every run** in which no time is beyond the maximum simulation time: the time does not decrease,
and an event that was cancelled or removed is not executed any more. -/
theorem run_disciplined {ops : List SimulatorOp} (h : Program ops)
    (htime : ∀ pre op, pre ++ [op] <+: ops → (run pre).InTime op) :
    Disciplined (run ops) ∧ ∀ pre, pre <+: ops → (run pre).currentTs ≤ (run ops).currentTs ∧
      ∀ id ∈ (run pre).calls, id ∈ (run ops).invoked → id ∈ (run pre).invoked := by
  refine ⟨(inv_run h htime).disciplined, fun pre hpre => ?_⟩
  have hfollows := follows_run h htime hpre
  exact ⟨hfollows.currentTs, hfollows.invoked⟩

def threeEvents : List SimulatorOp :=
  [.schedule 5, .scheduleNow, .scheduleWithContext 7 0, .processOneEvent, .cancel ⟨3, ⟨0, 6, 7⟩⟩, .processOneEvent,
    .processOneEvent]

theorem program_threeEvents : Program threeEvents :=
  ⟨RunLib.forall_step_iff_forall_fin.mpr (by decide), by decide⟩

theorem inTime_threeEvents : ∀ pre op, pre ++ [op] <+: threeEvents → (run pre).InTime op :=
  RunLib.forall_step_iff_forall_fin.mpr (by decide)

theorem run_disciplined_threeEvents :
    Program threeEvents ∧ (∀ pre op, pre ++ [op] <+: threeEvents → (run pre).InTime op) ∧
      Disciplined (run threeEvents) ∧ (run threeEvents).processed.map (fun e => e.key.uid) = [5, 6, 4] ∧
      (run threeEvents).invoked.map (fun e => e.key.uid) = [5, 4] :=
  ⟨program_threeEvents, inTime_threeEvents, (run_disciplined program_threeEvents inTime_threeEvents).1,
    by decide, by decide⟩

/-- Three events in turn, whose times wrap. -/
def wrappingTimes : List SimulatorOp :=
  [.schedule (2 ^ 63 - 1), .processOneEvent, .schedule (2 ^ 63 - 1), .processOneEvent, .schedule 3, .processOneEvent]

def manyEvents (n : ℕ) : List SimulatorOp := List.replicate n (.schedule 0)

theorem program_manyEvents {n : ℕ} (hn : n < 2 ^ 32 - 4) : Program (manyEvents n) where
  knows pre op hop := by
    have hmem : op ∈ manyEvents n := hop.subset (List.mem_append_right _ List.mem_cons_self)
    rw [List.eq_of_mem_replicate hmem]
    trivial
  count := (List.countP_le_length).trans_lt (by rwa [manyEvents, List.length_replicate])

theorem run_manyEvents {n : ℕ} (hn : n < 2 ^ 32 - 4) :
    (run (manyEvents n)).currentTs = 0 ∧ (run (manyEvents n)).pending.length = n ∧
      Inv (run (manyEvents n)) n := by
  induction n with
  | zero => exact ⟨rfl, rfl, Inv.init⟩
  | succ n ih =>
    obtain ⟨hts, hlen, hinv⟩ := ih (by omega)
    have hrun : run (manyEvents (n + 1)) = (run (manyEvents n)).schedule 0 := by
      rw [manyEvents, List.replicate_succ', run_concat]
      rfl
    rw [hrun]
    refine ⟨hts, ?_, hinv.insertEvent _ ?_ (by omega)⟩
    · rw [schedule, pending_insertEvent hinv.sorted fun e he => (hinv.uids e (hinv.pending e he)).2,
        (ListScheduler.insert_perm _ _).length_eq, List.length_cons, hlen]
    · rw [hts]
      exact Nat.zero_le _

/-- **Times and counts wrap**: the time of the third event is less than that of the second, and `2 ^ 31` events in
the scheduler are counted as `-2 ^ 31`. -/
theorem not_run_disciplined :
    (Program wrappingTimes ∧ (run wrappingTimes).currentTs = 1 ∧
      (run (wrappingTimes.take 4)).currentTs = 2 ^ 64 - 2) ∧
      Program (manyEvents (2 ^ 31)) ∧ (run (manyEvents (2 ^ 31))).pending.length = 2 ^ 31 ∧
      (run (manyEvents (2 ^ 31))).unscheduledEvents = -2 ^ 31 := by
  have hwrapping : Program wrappingTimes :=
    ⟨RunLib.forall_step_iff_forall_fin.mpr (by decide), by decide⟩
  have hn : 2 ^ 31 < 2 ^ 32 - 4 := by decide
  obtain ⟨-, hlen, hinv⟩ := run_manyEvents hn
  refine ⟨⟨hwrapping, by decide, by decide⟩, program_manyEvents hn, hlen, ?_⟩
  rw [hinv.count, hlen]
  decide

end Simulator

end Ns3Ndn
