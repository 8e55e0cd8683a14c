import Ns3Ndn.Core.Scheduler
import Ns3Ndn.Lib.Heap
import Ns3Ndn.Lib.Run

/-!
# The heap scheduler

`core/model/heap-scheduler.cc`: a binary heap of events. `Remove` puts the last event in the place of the one that is
removed, and moves it down. It never moves it up, so an event that is less than the parent of this place is then in
the wrong order.

* `Agrees`: the heap stores the events of a list scheduler in heap order, and gives the same next event;
* `KeepsOrder`: the last event is not less than the parent of the place that it takes;
* **`run_agrees_iff`**: the two schedulers agree all along a run exactly when all removals keep the order.
-/

namespace Ns3Ndn

open HeapLib RunLib

structure HeapScheduler where
  heap : Array Event := #[{}]
  pos : 0 < heap.size := by decide

namespace HeapScheduler

def last (heap : Array Event) : ℕ := heap.size - 1

def bottomUp (heap : Array Event) : Array Event := HeapLib.bottomUp Event.rank heap.size heap (last heap)

/-- `TopDown`. -/
def topDown (heap : Array Event) (start : ℕ) : Array Event := HeapLib.topDown Event.rank (heap.size + 1) heap start

variable (s : HeapScheduler)

def isEmpty : Bool := s.heap.size == 1

def peekNext : Event := get s.heap 1

def insert (ev : Event) : HeapScheduler where
  heap := bottomUp (s.heap.push ev)
  pos := by
    rw [bottomUp, bottomUp_size, Array.size_push]
    omega

def removeAt (i : ℕ) : Array Event := topDown (exch s.heap i (last s.heap)).pop i

def removeNext (h : 1 < s.heap.size) : Event × HeapScheduler where
  fst := get s.heap 1
  snd :=
    { heap := s.removeAt 1
      pos := by
        rw [removeAt, topDown, topDown_size, Array.size_pop, size_exch]
        omega }

/-- The place of the event with a number. -/
def findUid (uid : ℕ) : Option ℕ :=
  (List.range' 1 (s.heap.size - 1)).find? fun i => uid == (get s.heap i).key.uid

theorem findUid_bounds {uid i : ℕ} (h : s.findUid uid = some i) : 1 ≤ i ∧ i < s.heap.size := by
  have hmem := List.mem_of_find?_eq_some h
  rw [List.mem_range'_1] at hmem
  have := s.pos
  omega

def remove (ev : Event) : Option HeapScheduler :=
  match h : s.findUid ev.key.uid with
  | none => none
  | some i =>
    if (get s.heap i).impl = ev.impl then
      some
        { heap := s.removeAt i
          pos := by
            have := s.findUid_bounds h
            rw [removeAt, topDown, topDown_size, Array.size_pop, size_exch]
            omega }
    else none

/-- One call; `none` stands for a failed assertion. -/
def apply (s : HeapScheduler) : SchedulerOp → Option HeapScheduler
  | .insert ev => some (s.insert ev)
  | .removeNext => if h : 1 < s.heap.size then some (s.removeNext h).2 else none
  | .remove ev => s.remove ev

/-- A sequence of calls. -/
def run (ops : List SchedulerOp) : Option HeapScheduler := ops.foldlM apply {}

theorem run_concat (ops : List SchedulerOp) (op : SchedulerOp) :
    run (ops ++ [op]) = (run ops).bind fun s => s.apply op := by
  simp [run, List.foldlM_append]

/-! ## Agreement with the list -/

/-- **The heap and the list agree.** -/
structure Agrees (s : HeapScheduler) (events : List Event) : Prop where
  /-- The events that are stored. -/
  stored : (stored s.heap).Perm events
  /-- No child is less than its parent. -/
  ordered : Ordered Event.rank s.heap
  /-- The next event. -/
  peekNext : events ≠ [] → s.peekNext = ListScheduler.peekNext events
  isEmpty : s.isEmpty = ListScheduler.isEmpty events

/-- The last event is not less than the parent of the place that it takes. -/
def KeepsOrder (s : HeapScheduler) : SchedulerOp → Prop
  | .remove ev => ∀ i ∈ s.findUid ev.key.uid,
      i = 1 ∨ i = last s.heap ∨ ¬ (get s.heap (last s.heap)).key.lt (get s.heap (i / 2)).key
  | _ => True

instance (s : HeapScheduler) (op : SchedulerOp) : Decidable (s.KeepsOrder op) :=
  match op with
  | .remove _ => inferInstanceAs (Decidable (∀ i ∈ s.findUid _, _))
  | .insert _ | .removeNext => inferInstanceAs (Decidable True)

variable {s} {events : List Event}

theorem length_stored : (HeapLib.stored s.heap).length = s.heap.size - 1 := by
  rw [HeapLib.stored, List.length_tail, Array.length_toList]

theorem agrees_iff (hsorted : ListScheduler.Sorted events) :
    s.Agrees events ↔ (HeapLib.stored s.heap).Perm events ∧ Ordered Event.rank s.heap := by
  refine ⟨fun h => ⟨h.stored, h.ordered⟩, fun ⟨hperm, hord⟩ => ⟨hperm, hord, fun hne => ?_, ?_⟩⟩
  · have hsize : 1 < s.heap.size := by
      have hlength := hperm.length_eq
      have := List.length_pos_iff.mpr hne
      rw [length_stored] at hlength
      omega
    refine hsorted.eq_peekNext (hperm.mem_iff.mp (mem_stored.mpr ⟨1, le_rfl, hsize, rfl⟩)) fun b hb => ?_
    obtain ⟨i, hi, hlt, rfl⟩ := mem_stored.mp (hperm.mem_iff.mpr hb)
    exact hord.root_le hi hlt
  · have hlength := hperm.length_eq
    rw [length_stored] at hlength
    have := s.pos
    rw [isEmpty, ListScheduler.isEmpty, Bool.eq_iff_iff, beq_iff_eq, List.isEmpty_iff, ← List.length_eq_zero_iff]
    omega

theorem Agrees.insert (h : s.Agrees events) {ev : Event} :
    (HeapLib.stored (s.insert ev).heap).Perm (ListScheduler.insert events ev) ∧
      Ordered Event.rank (s.insert ev).heap := by
  have hpos := s.pos
  have hsize : (s.heap.push ev).size = s.heap.size + 1 := Array.size_push ..
  have hlast : last (s.heap.push ev) = s.heap.size := by
    rw [last, hsize]
    omega
  constructor
  · have hperm : (HeapLib.stored (s.insert ev).heap).Perm (HeapLib.stored (s.heap.push ev)) :=
      stored_perm (by omega) (bottomUp_perm ..) (get_bottomUp_zero _ (by omega))
    refine hperm.trans ?_
    rw [stored_push s.pos]
    refine (List.perm_append_singleton ev _).trans ((h.stored.cons ev).trans ?_)
    exact (ListScheduler.insert_perm events ev).symm
  · refine ordered_bottomUp ⟨fun j h2 hj hne => ?_, fun h2 c hc hlt => ?_⟩ (by omega) (by omega) (by omega)
    · have hj' : j < s.heap.size := by omega
      rw [get_push_lt ev hj', get_push_lt ev (by omega)]
      exact h.ordered j h2 hj'
    · omega

theorem Agrees.removeAt (h : s.Agrees events) {i : ℕ} (hi : 1 ≤ i) (hlt : i < s.heap.size) :
    (HeapLib.stored s.heap).Perm (get s.heap i :: HeapLib.stored (s.removeAt i)) ∧
      (Ordered Event.rank (s.removeAt i) ↔
        i = 1 ∨ i = last s.heap ∨ (get s.heap (i / 2)).rank ≤ (get s.heap (last s.heap)).rank) := by
  have hsize : (exch s.heap i (last s.heap)).pop.size = s.heap.size - 1 := size_exch_pop
  constructor
  · have hpos : 0 < (exch s.heap i (last s.heap)).pop.size := by omega
    refine (stored_exch_pop hi hlt).trans (List.Perm.cons _ ?_)
    exact (stored_perm hpos (topDown_perm ..) (get_topDown_zero _ hi)).symm
  · have hfuel : s.heap.size ≤ (exch s.heap i (last s.heap)).pop.size + 1 := by omega
    exact ordered_removeAt_iff h.ordered hi hlt hfuel

/-- **One call keeps the agreement just when it keeps the order.** -/
theorem Agrees.apply_iff (h : s.Agrees events) (hsorted : ListScheduler.Sorted events) {op : SchedulerOp}
    (hop : ListScheduler.Admits events op) :
    (∃ t, s.apply op = some t ∧ t.Agrees (ListScheduler.apply events op)) ↔ s.KeepsOrder op := by
  have hsorted' := hsorted.apply hop
  have hlength := h.stored.length_eq
  rw [length_stored] at hlength
  cases op with
  | insert ev =>
    refine iff_of_true ⟨_, rfl, (agrees_iff hsorted').mpr h.insert⟩ trivial
  | removeNext =>
    have hsize : 1 < s.heap.size := by
      have := List.length_pos_iff.mpr hop
      omega
    obtain ⟨hperm, hord⟩ := h.removeAt le_rfl hsize
    refine iff_of_true ⟨(s.removeNext hsize).2, dif_pos hsize, (agrees_iff hsorted').mpr ⟨?_, ?_⟩⟩ trivial
    · have hhead : events = get s.heap 1 :: events.tail := by
        rw [show get s.heap 1 = ListScheduler.peekNext events from h.peekNext hop]
        cases events with
        | nil => exact absurd rfl hop
        | cons e events => rfl
      have hall := hperm.symm.trans h.stored
      rw [hhead] at hall
      exact hall.cons_inv
    · exact hord.mpr (Or.inl rfl)
  | remove ev =>
    have hmem : ev ∈ HeapLib.stored s.heap := h.stored.mem_iff.mpr hop
    obtain ⟨j, hj, hjlt, hget⟩ := mem_stored.mp hmem
    obtain ⟨i, hi⟩ : ∃ i, s.findUid ev.key.uid = some i := by
      rw [← Option.isSome_iff_exists, findUid, List.find?_isSome]
      refine ⟨j, ?_, by rw [hget, beq_self_eq_true]⟩
      rw [List.mem_range'_1]
      omega
    obtain ⟨h1, hlt⟩ := s.findUid_bounds hi
    -- the numbers are distinct, so this is the event itself
    have hev : get s.heap i = ev := by
      have huid := List.find?_some hi
      rw [beq_iff_eq] at huid
      refine hsorted.eq_of_uid_eq (h.stored.mem_iff.mp (mem_stored.mpr ⟨i, h1, hlt, rfl⟩)) hop huid.symm
    obtain ⟨hperm, hord⟩ := h.removeAt h1 hlt
    have hcontent : (HeapLib.stored (s.removeAt i)).Perm (ListScheduler.remove events ev) := by
      have hall := (hperm.symm.trans h.stored).trans (ListScheduler.remove_perm hop hsorted.uid)
      rw [hev] at hall
      exact hall.cons_inv
    have hkeeps : s.KeepsOrder (.remove ev) ↔ Ordered Event.rank (s.removeAt i) := by
      rw [hord]
      change (∀ i ∈ s.findUid ev.key.uid, _) ↔ _
      rw [hi]
      simp [EventKey.lt_iff]
    rw [hkeeps]
    have hremove : ∃ t, s.remove ev = some t ∧ t.heap = s.removeAt i := by
      unfold remove
      split
      case h_1 hnone =>
        rw [hi] at hnone
        cases hnone
      case h_2 i' hi' =>
        obtain rfl := Option.some.inj (hi.symm.trans hi')
        rw [if_pos (by rw [hev])]
        exact ⟨_, rfl, rfl⟩
    obtain ⟨t, ht, hheap⟩ := hremove
    constructor
    · rintro ⟨t', ht', hagrees⟩
      obtain rfl := Option.some.inj (ht.symm.trans ht')
      exact hheap ▸ hagrees.ordered
    · intro hordered
      exact ⟨t, ht, (agrees_iff hsorted').mpr (hheap ▸ ⟨hcontent, hordered⟩)⟩

/-- **The heap agrees with the list all along a run exactly when no removal of the run puts the last event below a
greater one.** -/
theorem run_agrees_iff (ops : List SchedulerOp) (hops : ListScheduler.Admitted ops) :
    (∀ pre, pre <+: ops → ∃ s, run pre = some s ∧ s.Agrees (ListScheduler.run pre)) ↔
      ∀ pre op, pre ++ [op] <+: ops → ∀ s, run pre = some s → s.KeepsOrder op := by
  have hrun := forall_prefix_iff_forall_step
    (P := fun pre => ListScheduler.Admitted pre → ∃ s, run pre = some s ∧ s.Agrees (ListScheduler.run pre))
    (Q := fun pre op => ListScheduler.Admitted (pre ++ [op]) → ∀ s, run pre = some s → s.KeepsOrder op)
    (fun h => ⟨{}, rfl, (agrees_iff h.sorted).mpr ⟨List.Perm.refl _, fun i h2 hlt => ?_⟩⟩) ?_ ops
  · have hadmitted : ∀ {pre}, pre <+: ops → ListScheduler.Admitted pre := fun hpre p op hp =>
      hops p op (hp.trans hpre)
    refine Iff.trans ⟨fun h pre hpre _ => h pre hpre, fun h pre hpre => h pre hpre (hadmitted hpre)⟩
      (hrun.trans ⟨fun h pre op hpre => h pre op hpre (hadmitted hpre), fun h pre op hpre _ => h pre op hpre⟩)
  · change i < 1 at hlt
    omega
  · intro pre op hpre
    by_cases hadm : ListScheduler.Admitted (pre ++ [op])
    · obtain ⟨hops', hop⟩ := hadm.of_concat
      obtain ⟨s, hs, hagrees⟩ := hpre hops'
      rw [run_concat, hs, Option.bind_some, ListScheduler.run_concat]
      refine (imp_iff_right hadm).trans ((hagrees.apply_iff hops'.sorted hop).trans ?_)
      refine ⟨fun h _ s' hs' => Option.some.inj hs' ▸ h, fun h => h hadm s rfl⟩
    · exact iff_of_true (fun h => absurd h hadm) fun h => absurd h hadm

def eventAt (ts uid : ℕ) : Event := ⟨uid, ⟨ts, uid, 0⟩⟩

def sevenEvents : List SchedulerOp :=
  [.insert (eventAt 1 4), .insert (eventAt 10 5), .insert (eventAt 2 6), .insert (eventAt 11 7),
    .insert (eventAt 12 8), .insert (eventAt 3 9), .insert (eventAt 4 10)]

/-- The last event is removed, and then the first. -/
theorem run_agrees_iff_sevenEvents :
    ListScheduler.Admitted (sevenEvents ++ [.remove (eventAt 4 10), .removeNext]) ∧
      ((∀ pre, pre <+: sevenEvents ++ [.remove (eventAt 4 10), .removeNext] →
          ∃ s, run pre = some s ∧ s.Agrees (ListScheduler.run pre)) ↔
        ∀ pre op, pre ++ [op] <+: sevenEvents ++ [.remove (eventAt 4 10), .removeNext] →
          ∀ s, run pre = some s → s.KeepsOrder op) := by
  have hops : ListScheduler.Admitted (sevenEvents ++ [.remove (eventAt 4 10), .removeNext]) := by decide
  exact ⟨hops, run_agrees_iff _ hops⟩

/-- When the event at time 11 is removed, the one at time 4 comes below that at time 10. -/
theorem not_run_agrees_sevenEvents :
    ListScheduler.Admitted (sevenEvents ++ [.remove (eventAt 11 7)]) ∧
      ¬ ∀ pre, pre <+: sevenEvents ++ [.remove (eventAt 11 7)] →
        ∃ s, run pre = some s ∧ s.Agrees (ListScheduler.run pre) := by
  refine ⟨by decide, fun h => ?_⟩
  obtain ⟨s, hs, hagrees⟩ := h _ (List.prefix_refl _)
  have hrun : (run (sevenEvents ++ [.remove (eventAt 11 7)])).map heap =
      some #[{}, eventAt 1 4, eventAt 10 5, eventAt 2 6, eventAt 4 10, eventAt 12 8, eventAt 3 9] := by
    decide
  rw [hs, Option.map_some, Option.some_inj] at hrun
  have hpair := hagrees.ordered 4 (by omega) (by rw [hrun]; decide)
  rw [hrun] at hpair
  exact absurd hpair (by decide)

end HeapScheduler

end Ns3Ndn
