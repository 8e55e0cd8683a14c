import Mathlib
import Ns3Ndn.Lib.Run

/-!
# Schedulers

The events of `core/model/scheduler.h`, which are ordered by time and then by their number, and `ListScheduler` of
`core/model/list-scheduler.cc`. This scheduler is the one that the others are compared with.
-/

namespace Ns3Ndn

structure EventKey where
  ts : ℕ := 0
  uid : ℕ := 0
  context : ℕ := 0
deriving DecidableEq

def EventKey.lt (a b : EventKey) : Bool :=
  if a.ts < b.ts then true
  else if a.ts == b.ts && decide (a.uid < b.uid) then true
  else false

structure Event where
  impl : ℕ := 0
  key : EventKey := {}
deriving DecidableEq

instance : Inhabited Event := ⟨{}⟩

def Event.rank (e : Event) : ℕ ×ₗ ℕ := toLex (e.key.ts, e.key.uid)

theorem EventKey.lt_iff (a b : Event) : a.key.lt b.key = true ↔ a.rank < b.rank := by
  rw [EventKey.lt, Event.rank, Event.rank, Prod.Lex.toLex_lt_toLex]
  split_ifs with h1 h2
  · simp [h1]
  · simp only [Bool.and_eq_true, beq_iff_eq, decide_eq_true_eq] at h2
    simp [h2]
  · simp only [Bool.and_eq_true, beq_iff_eq, decide_eq_true_eq] at h2
    simp [h1, h2]

theorem Event.uid_eq_of_rank_eq {a b : Event} (h : a.rank = b.rank) : a.key.uid = b.key.uid := by
  rw [rank, rank, EmbeddingLike.apply_eq_iff_eq, Prod.mk.injEq] at h
  exact h.2

inductive SchedulerOp where
  | insert (ev : Event)
  | removeNext
  | remove (ev : Event)
deriving DecidableEq

/-! ## The list -/

namespace ListScheduler

def insert : List Event → Event → List Event
  | [], ev => [ev]
  | e :: events, ev => if ev.key.lt e.key then ev :: e :: events else e :: insert events ev

def isEmpty (events : List Event) : Bool := events.isEmpty

/-- `PeekNext`, of a scheduler that is not empty. -/
def peekNext (events : List Event) : Event := events.headD {}

def removeNext (events : List Event) : Event × List Event := (events.headD {}, events.tail)

def remove (events : List Event) (ev : Event) : List Event := events.eraseP fun e => e.key.uid == ev.key.uid

/-- One call. -/
def apply (events : List Event) : SchedulerOp → List Event
  | .insert ev => insert events ev
  | .removeNext => (removeNext events).2
  | .remove ev => remove events ev

/-- A sequence of calls. -/
def run (ops : List SchedulerOp) : List Event := ops.foldl apply []

/-- When a call may be made: the numbers of the events are distinct, only a scheduler that is not empty gives its
next event, and only an event that is stored is removed. -/
def Admits (events : List Event) : SchedulerOp → Prop
  | .insert ev => ∀ e ∈ events, e.key.uid ≠ ev.key.uid
  | .removeNext => events ≠ []
  | .remove ev => ev ∈ events

instance (events : List Event) (op : SchedulerOp) : Decidable (Admits events op) :=
  match op with
  | .insert _ | .removeNext | .remove _ => by unfold Admits; infer_instance

/-- All calls of a sequence may be made. -/
def Admitted (ops : List SchedulerOp) : Prop := ∀ pre op, pre ++ [op] <+: ops → Admits (run pre) op

instance (ops : List SchedulerOp) : Decidable (Admitted ops) :=
  decidable_of_iff _ RunLib.forall_step_iff_forall_fin.symm

theorem run_concat (ops : List SchedulerOp) (op : SchedulerOp) : run (ops ++ [op]) = apply (run ops) op := by
  rw [run, List.foldl_append]
  rfl

structure Sorted (events : List Event) : Prop where
  rank : events.Pairwise fun a b => a.rank < b.rank
  uid : (events.map fun e => e.key.uid).Nodup

theorem insert_perm (events : List Event) (ev : Event) : (insert events ev).Perm (ev :: events) := by
  induction events with
  | nil => exact List.Perm.refl _
  | cons e events ih =>
    rw [insert]
    split_ifs
    · exact List.Perm.refl _
    · exact (ih.cons e).trans (List.Perm.swap ev e events)

theorem rank_insert {events : List Event} {ev : Event} (h : events.Pairwise fun a b => a.rank < b.rank)
    (hne : ∀ e ∈ events, e.rank ≠ ev.rank) : (insert events ev).Pairwise fun a b => a.rank < b.rank := by
  induction events with
  | nil => exact List.pairwise_singleton _ _
  | cons e events ih =>
    obtain ⟨he, hrest⟩ := List.pairwise_cons.mp h
    rw [insert]
    split_ifs with hlt
    · rw [EventKey.lt_iff] at hlt
      refine List.pairwise_cons.mpr ⟨fun a ha => ?_, h⟩
      rcases List.mem_cons.mp ha with rfl | ha
      · exact hlt
      · exact hlt.trans (he a ha)
    · rw [EventKey.lt_iff, not_lt] at hlt
      have hless : e.rank < ev.rank := lt_of_le_of_ne hlt (hne e List.mem_cons_self)
      refine List.pairwise_cons.mpr ⟨fun a ha => ?_, ih hrest fun a ha => hne a (List.mem_cons_of_mem e ha)⟩
      rcases List.mem_cons.mp ((insert_perm events ev).mem_iff.mp ha) with rfl | ha
      · exact hless
      · exact he a ha

theorem remove_perm {events : List Event} {ev : Event} (h : ev ∈ events)
    (huid : (events.map fun e => e.key.uid).Nodup) : events.Perm (ev :: remove events ev) := by
  have hfirst : (events.eraseP fun e => e.key.uid == ev.key.uid) = events.erase ev := by
    induction events with
    | nil => rfl
    | cons e events ih =>
      obtain ⟨he, huid⟩ := List.nodup_cons.mp huid
      by_cases hev : e = ev
      · subst hev
        simp
      · have hne : e.key.uid ≠ ev.key.uid := by
          intro heq
          refine he (List.mem_map.mpr ⟨ev, ?_, heq.symm⟩)
          exact (List.mem_cons.mp h).resolve_left (Ne.symm hev)
        rw [List.eraseP_cons_of_neg (by simpa using hne), List.erase_cons_tail (by simpa using hev),
          ih ((List.mem_cons.mp h).resolve_left (Ne.symm hev)) huid]
  rw [remove, hfirst]
  exact List.perm_cons_erase h

/-- **A call keeps the events in order.** -/
theorem Sorted.apply {events : List Event} (h : Sorted events) {op : SchedulerOp} (hop : Admits events op) :
    Sorted (apply events op) := by
  cases op with
  | insert ev =>
    refine ⟨rank_insert h.rank fun e he heq => hop e he (Event.uid_eq_of_rank_eq heq), ?_⟩
    refine (((insert_perm events ev).map fun e => e.key.uid).nodup_iff).mpr (List.nodup_cons.mpr ⟨fun hmem => ?_, h.uid⟩)
    obtain ⟨e, he, heq⟩ := List.mem_map.mp hmem
    exact hop e he heq
  | removeNext =>
    refine ⟨h.rank.sublist (List.tail_sublist _), ?_⟩
    exact h.uid.sublist ((List.tail_sublist _).map _)
  | remove ev => exact ⟨h.rank.sublist List.eraseP_sublist, h.uid.sublist (List.eraseP_sublist.map _)⟩

theorem Admitted.of_concat {ops : List SchedulerOp} {op : SchedulerOp} (h : Admitted (ops ++ [op])) :
    Admitted ops ∧ Admits (run ops) op :=
  ⟨fun pre op' hpre => h pre op' (hpre.trans (List.prefix_append _ _)), h ops op (List.prefix_refl _)⟩

theorem Admitted.sorted {ops : List SchedulerOp} (h : Admitted ops) : Sorted (run ops) := by
  induction ops using List.reverseRecOn with
  | nil => exact ⟨List.Pairwise.nil, List.nodup_nil⟩
  | append_singleton ops op ih =>
    obtain ⟨hops, hop⟩ := h.of_concat
    rw [run_concat]
    exact (ih hops).apply hop

theorem Sorted.eq_of_uid_eq {events : List Event} (h : Sorted events) {a b : Event} (ha : a ∈ events)
    (hb : b ∈ events) (huid : a.key.uid = b.key.uid) : a = b :=
  List.inj_on_of_nodup_map h.uid ha hb huid

/-- **A least event is the first one.** -/
theorem Sorted.eq_peekNext {events : List Event} (h : Sorted events) {a : Event} (ha : a ∈ events)
    (hleast : ∀ b ∈ events, a.rank ≤ b.rank) : a = peekNext events := by
  cases events with
  | nil => cases ha
  | cons e events =>
    rcases List.mem_cons.mp ha with rfl | ha
    · rfl
    · have hlt := (List.pairwise_cons.mp h.rank).1 a ha
      exact absurd (hleast e List.mem_cons_self) (not_le.mpr hlt)

end ListScheduler

end Ns3Ndn
