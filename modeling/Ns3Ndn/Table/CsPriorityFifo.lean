import Ns3Ndn.Table.CsLru

/-!
# Priority FIFO

`NFD/daemon/table/cs-policy-priority-fifo.cpp`: the policy `priority_fifo` keeps the entries in three queues, for
unsolicited, stale and fresh Data. A timer moves an entry from the last one to the queue of stale Data. The first entry
of the first queue that is not empty is evicted.

The nodes of the queues and the events of the scheduler have numbers, which stand for `Queue::iterator` and `EventId`.

* `Attached`: the queues, the map and the timers have the same entries;
* **`run_mirrors`**: both policies mirror the table along every run.
-/

namespace Ns3Ndn

open Function RecencyLib

namespace PriorityFifo

inductive QueueType where
  | unsolicited
  | stale
  | fifo
deriving DecidableEq

structure EntryInfo where
  queueType : QueueType
  queueIt : ℕ
  moveStaleEventId : Option ℕ := none

/-- An event of the scheduler, which moves an entry to the stale queue. -/
structure Timer where
  id : ℕ
  time : ℕ
  ref : EntryRef
deriving DecidableEq

structure FifoState where
  queues : QueueType → List (ℕ × EntryRef) := fun _ => []
  entryInfoMap : EntryRef → Option EntryInfo := fun _ => none
  timers : List Timer := []
  nextId : ℕ := 0

def detachQueue (s : Store FifoState) (i : EntryRef) : Option (Store FifoState) :=
  (s.policy.entryInfoMap i).map fun info =>
    { s with
      policy :=
        { s.policy with
          timers :=
            if info.queueType = .fifo then s.policy.timers.filter fun t => info.moveStaleEventId ≠ some t.id
            else s.policy.timers
          queues := update s.policy.queues info.queueType
            ((s.policy.queues info.queueType).filter fun node => node.1 ≠ info.queueIt)
          entryInfoMap := update s.policy.entryInfoMap i none } }

def queueTypeOf (e : CsEntry) (now : ℕ) : QueueType :=
  if e.isUnsolicited then .unsolicited else if ! e.isFresh now then .stale else .fifo

def attachQueue (s : Store FifoState) (i : EntryRef) : Option (Store FifoState) :=
  if (s.policy.entryInfoMap i).isSome then none
  else (s.table.get i).map fun e =>
    let queueType := queueTypeOf e s.now
    { s with
      policy :=
        { timers :=
            if queueType = .fifo then s.policy.timers ++ [⟨s.policy.nextId, s.now + e.data.freshnessPeriod, i⟩]
            else s.policy.timers
          queues := update s.policy.queues queueType (s.policy.queues queueType ++ [(s.policy.nextId, i)])
          entryInfoMap := update s.policy.entryInfoMap i
            (some ⟨queueType, s.policy.nextId, if queueType = .fifo then some s.policy.nextId else none⟩)
          nextId := s.policy.nextId + 1 } }

def moveToStaleQueue (s : Store FifoState) (i : EntryRef) : Option (Store FifoState) :=
  (s.policy.entryInfoMap i).bind fun info =>
    if info.queueType = .fifo then
      let queues := update s.policy.queues .fifo ((s.policy.queues .fifo).filter fun node => node.1 ≠ info.queueIt)
      some { s with
        policy :=
          { s.policy with
            queues := update queues .stale (queues .stale ++ [(s.policy.nextId, i)])
            entryInfoMap := update s.policy.entryInfoMap i
              (some { info with queueType := .stale, queueIt := s.policy.nextId })
            nextId := s.policy.nextId + 1 } }
    else none

def front (p : FifoState) : Option EntryRef :=
  if (p.queues .unsolicited).isEmpty then
    if (p.queues .stale).isEmpty then (p.queues .fifo).head?.map Prod.snd else (p.queues .stale).head?.map Prod.snd
  else (p.queues .unsolicited).head?.map Prod.snd

def evictOne (s : Store FifoState) : Option (Store FifoState) :=
  (front s.policy).bind fun i => (detachQueue s i).map fun s => s.evict i

def evictLoop : ℕ → Store FifoState → Option (Store FifoState)
  | 0, s => if s.size > s.limit then none else some s
  | fuel + 1, s => if s.size > s.limit then (evictOne s).bind (evictLoop fuel) else some s

def evictEntries (s : Store FifoState) : Option (Store FifoState) := evictLoop s.size s

/-- The scheduler executes a timer whose time has come. -/
def fire (s : Store FifoState) (event : ℕ) : Option (Store FifoState) :=
  match s.policy.timers.find? fun t => t.id = event ∧ t.time ≤ s.now with
  | none => some s
  | some t =>
    moveToStaleQueue
      { s with
        policy := { s.policy with timers := s.policy.timers.filter fun t => t.id ≠ event }
        trace := s.trace ++ [.staled t.ref] } t.ref

end PriorityFifo

open PriorityFifo in
def priorityFifoPolicy : Policy FifoState where
  init := {}
  afterInsert s i := (attachQueue s i).bind evictEntries
  afterRefresh s i := (detachQueue s i).bind fun s => attachQueue s i
  beforeErase := detachQueue
  beforeUse s i := if (s.policy.entryInfoMap i).isSome then some s else none
  evictEntries := evictEntries
  fire := fire

namespace PriorityFifo

/-! ## Queues, map and timers -/

/-- The queues, the map and the timers are of the same entries, those with `refs`. -/
structure Attached (p : FifoState) (refs : EntryRef → Prop) : Prop where
  info_iff : ∀ r, (p.entryInfoMap r).isSome ↔ refs r
  node : ∀ r info, p.entryInfoMap r = some info → (info.queueIt, r) ∈ p.queues info.queueType
  info : ∀ t node, node ∈ p.queues t → ∃ info, p.entryInfoMap node.2 = some info ∧ info.queueType = t ∧
    info.queueIt = node.1
  ids : ∀ t, ((p.queues t).map Prod.fst).Nodup
  id_lt : ∀ t, ∀ node ∈ p.queues t, node.1 < p.nextId
  timer : ∀ r info, p.entryInfoMap r = some info → info.queueType = .fifo →
    ∃ t ∈ p.timers, t.ref = r ∧ info.moveStaleEventId = some t.id
  timerInfo : ∀ t ∈ p.timers, ∃ info, p.entryInfoMap t.ref = some info ∧ info.queueType = .fifo ∧
    info.moveStaleEventId = some t.id
  timerIds : (p.timers.map Timer.id).Nodup
  timer_lt : ∀ t ∈ p.timers, t.id < p.nextId

def detach (p : FifoState) (i : EntryRef) (info : EntryInfo) : FifoState :=
  { p with
    timers := if info.queueType = .fifo then p.timers.filter fun t => info.moveStaleEventId ≠ some t.id else p.timers
    queues := update p.queues info.queueType ((p.queues info.queueType).filter fun node => node.1 ≠ info.queueIt)
    entryInfoMap := update p.entryInfoMap i none }

def place (p : FifoState) (i : EntryRef) (info : EntryInfo) (timers : List Timer) : FifoState where
  timers := p.timers ++ timers
  queues := update p.queues info.queueType (p.queues info.queueType ++ [(p.nextId, i)])
  entryInfoMap := update p.entryInfoMap i (some info)
  nextId := p.nextId + 1

section Attached

variable {p : FifoState} {refs : EntryRef → Prop} {i : EntryRef} {info : EntryInfo}

theorem mem_queues_detach {t : QueueType} {node : ℕ × EntryRef} (h : Attached p refs)
    (hi : p.entryInfoMap i = some info) : node ∈ (detach p i info).queues t ↔ node ∈ p.queues t ∧ node.2 ≠ i := by
  change node ∈ update p.queues info.queueType _ t ↔ _
  by_cases ht : t = info.queueType
  · subst ht
    rw [update_self, List.mem_filter, decide_eq_true_iff]
    refine and_congr_right fun hnode => ?_
    have hmem := h.node i info hi
    constructor
    · rintro hid rfl
      obtain ⟨info', hinfo', -, hit⟩ := h.info _ node hnode
      obtain rfl := Option.some.inj (hi.symm.trans hinfo')
      exact hid hit.symm
    · rintro hne hid
      have heq := List.inj_on_of_nodup_map (h.ids _) hnode hmem hid
      exact hne (congrArg Prod.snd heq)
  · rw [update_of_ne ht]
    refine (and_iff_left_of_imp fun hnode => ?_).symm
    rintro rfl
    obtain ⟨info', hinfo', htype, -⟩ := h.info t node hnode
    obtain rfl := Option.some.inj (hi.symm.trans hinfo')
    exact ht htype.symm

theorem queues_detach_sublist (p : FifoState) (i : EntryRef) (info : EntryInfo) (t : QueueType) :
    ((detach p i info).queues t).Sublist (p.queues t) := by
  change (update p.queues info.queueType _ t).Sublist _
  by_cases ht : t = info.queueType
  · subst ht
    rw [update_self]
    exact List.filter_sublist
  · rw [update_of_ne ht]

theorem mem_timers_detach {t : Timer} (h : Attached p refs) (hi : p.entryInfoMap i = some info) :
    t ∈ (detach p i info).timers ↔ t ∈ p.timers ∧ t.ref ≠ i := by
  change t ∈ (if info.queueType = .fifo then _ else _) ↔ _
  split_ifs with htype
  · rw [List.mem_filter, decide_eq_true_iff]
    refine and_congr_right fun ht => ?_
    obtain ⟨t', ht', hr', hid'⟩ := h.timer i info hi htype
    constructor
    · rintro hne rfl
      obtain ⟨info', hinfo', -, hid⟩ := h.timerInfo t ht
      obtain rfl := Option.some.inj (hi.symm.trans hinfo')
      exact hne hid
    · intro hne hid
      have heq := List.inj_on_of_nodup_map h.timerIds ht ht' (Option.some.inj (hid.symm.trans hid'))
      exact hne (heq ▸ hr')
  · refine (and_iff_left_of_imp fun ht => ?_).symm
    rintro rfl
    obtain ⟨info', hinfo', htype', -⟩ := h.timerInfo t ht
    obtain rfl := Option.some.inj (hi.symm.trans hinfo')
    exact htype htype'

theorem timers_detach_sublist (p : FifoState) (i : EntryRef) (info : EntryInfo) :
    (detach p i info).timers.Sublist p.timers := by
  change (if info.queueType = .fifo then _ else _ : List Timer).Sublist _
  split_ifs
  · exact List.filter_sublist
  · exact List.Sublist.refl _

variable (h : Attached p refs)

include h

/-- **Out of a queue.** -/
theorem Attached.detach (hi : p.entryInfoMap i = some info) : Attached (detach p i info) fun x => refs x ∧ x ≠ i := by
  have hmap : ∀ x info', (PriorityFifo.detach p i info).entryInfoMap x = some info' ↔
      p.entryInfoMap x = some info' ∧ x ≠ i := by
    intro x info'
    change update p.entryInfoMap i none x = some info' ↔ _
    by_cases hx : x = i
    · simp [hx]
    · simp [hx]
  refine ⟨?_, ?_, ?_, ?_, ?_, ?_, ?_, ?_, ?_⟩
  · intro x
    change (update p.entryInfoMap i none x).isSome ↔ _
    by_cases hx : x = i
    · simp [hx]
    · rw [update_of_ne hx, h.info_iff, and_iff_left hx]
  · intro x info' hx
    rw [hmap] at hx
    exact (mem_queues_detach h hi).mpr ⟨h.node x info' hx.1, hx.2⟩
  · intro t node hnode
    rw [mem_queues_detach h hi] at hnode
    obtain ⟨info', hinfo', hrest⟩ := h.info t node hnode.1
    exact ⟨info', (hmap _ _).mpr ⟨hinfo', hnode.2⟩, hrest⟩
  · exact fun t => (h.ids t).sublist ((queues_detach_sublist p i info t).map _)
  · exact fun t node hnode => h.id_lt t node ((queues_detach_sublist p i info t).subset hnode)
  · intro x info' hx htype
    rw [hmap] at hx
    obtain ⟨t, ht, hr, hid⟩ := h.timer x info' hx.1 htype
    exact ⟨t, (mem_timers_detach h hi).mpr ⟨ht, hr ▸ hx.2⟩, hr, hid⟩
  · intro t ht
    rw [mem_timers_detach h hi] at ht
    obtain ⟨info', hinfo', hrest⟩ := h.timerInfo t ht.1
    exact ⟨info', (hmap _ _).mpr ⟨hinfo', ht.2⟩, hrest⟩
  · exact h.timerIds.sublist ((timers_detach_sublist p i info).map _)
  · exact fun t ht => h.timer_lt t ((timers_detach_sublist p i info).subset ht)

/-- **Into a queue**, with a timer in that of fresh Data. -/
theorem Attached.place (hi : ¬ refs i) {timers : List Timer} (hit : info.queueIt = p.nextId)
    (htimers : (info.queueType = .fifo ∧ info.moveStaleEventId = some p.nextId ∧ ∃ time, timers = [⟨p.nextId, time, i⟩]) ∨
      (info.queueType ≠ .fifo ∧ timers = [])) :
    
    Attached (place p i info timers) fun x => refs x ∨ x = i := by
  have hnone : p.entryInfoMap i = none := by
    by_contra hsome
    exact hi ((h.info_iff i).mp (Option.isSome_iff_ne_none.mpr hsome))
  have hne : ∀ x info', p.entryInfoMap x = some info' → x ≠ i := by
    rintro x info' hx rfl
    rw [hnone] at hx
    cases hx
  have hold : ∀ x info', p.entryInfoMap x = some info' → (PriorityFifo.place p i info timers).entryInfoMap x = some info' := by
    intro x info' hx
    exact (update_of_ne (hne x info' hx) _ _).trans hx
  have hself : (PriorityFifo.place p i info timers).entryInfoMap i = some info := update_self _ _ _
  have hmap : ∀ x info', (PriorityFifo.place p i info timers).entryInfoMap x = some info' →
      p.entryInfoMap x = some info' ∨ (x = i ∧ info' = info) := by
    intro x info' hx
    by_cases hxi : x = i
    · subst hxi
      exact .inr ⟨rfl, (Option.some.inj (hself.symm.trans hx)).symm⟩
    · exact .inl ((update_of_ne hxi _ _).symm.trans hx)
  have hqueues : ∀ t node, node ∈ (PriorityFifo.place p i info timers).queues t ↔
      node ∈ p.queues t ∨ (t = info.queueType ∧ node = (p.nextId, i)) := by
    intro t node
    change node ∈ update p.queues info.queueType _ t ↔ _
    by_cases ht : t = info.queueType
    · subst ht
      rw [update_self, List.mem_append, List.mem_singleton]
      simp
    · rw [update_of_ne ht]
      simp [ht]
  have htimer : ∀ t ∈ timers, t.ref = i ∧ t.id = p.nextId ∧ info.queueType = .fifo ∧
      info.moveStaleEventId = some t.id := by
    intro t ht
    rcases htimers with ⟨htype, hid, time, rfl⟩ | ⟨-, rfl⟩
    · rw [List.mem_singleton.mp ht]
      exact ⟨rfl, rfl, htype, hid⟩
    · cases ht
  refine ⟨?_, ?_, ?_, ?_, ?_, ?_, ?_, ?_, ?_⟩
  · intro x
    by_cases hx : x = i
    · rw [hx, hself]
      simp
    · change (update p.entryInfoMap i _ x).isSome ↔ _
      rw [update_of_ne hx, h.info_iff, or_iff_left hx]
  · intro x info' hx
    rw [hqueues]
    rcases hmap x info' hx with hx | ⟨rfl, rfl⟩
    · exact .inl (h.node x info' hx)
    · exact .inr ⟨rfl, by rw [hit]⟩
  · intro t node hnode
    rcases (hqueues t node).mp hnode with hnode | ⟨rfl, rfl⟩
    · obtain ⟨info', hinfo', hrest⟩ := h.info t node hnode
      exact ⟨info', hold _ _ hinfo', hrest⟩
    · exact ⟨info, hself, rfl, hit⟩
  · intro t
    change ((update p.queues info.queueType _ t).map Prod.fst).Nodup
    by_cases ht : t = info.queueType
    · subst ht
      rw [update_self, List.map_append, List.nodup_append]
      refine ⟨h.ids _, List.nodup_singleton _, fun a ha b hb => ?_⟩
      obtain ⟨node, hnode, rfl⟩ := List.mem_map.mp ha
      have hlt := h.id_lt _ node hnode
      rw [List.map_singleton, List.mem_singleton] at hb
      rw [hb]
      exact hlt.ne
    · rw [update_of_ne ht]
      exact h.ids t
  · intro t node hnode
    change node.1 < p.nextId + 1
    rcases (hqueues t node).mp hnode with hnode | ⟨-, rfl⟩
    · exact (h.id_lt t node hnode).trans (Nat.lt_succ_self _)
    · exact Nat.lt_succ_self _
  · intro x info' hx htype
    rcases hmap x info' hx with hx | ⟨rfl, rfl⟩
    · obtain ⟨t, ht, hrest⟩ := h.timer x info' hx htype
      exact ⟨t, List.mem_append_left _ ht, hrest⟩
    · rcases htimers with ⟨-, hid, time, rfl⟩ | ⟨hnot, -⟩
      · exact ⟨_, List.mem_append_right _ (List.mem_singleton.mpr rfl), rfl, hid⟩
      · exact absurd htype hnot
  · intro t ht
    rcases List.mem_append.mp ht with ht | ht
    · obtain ⟨info', hinfo', hrest⟩ := h.timerInfo t ht
      exact ⟨info', hold _ _ hinfo', hrest⟩
    · obtain ⟨hr, -, hrest⟩ := htimer t ht
      exact ⟨info, hr ▸ hself, hrest⟩
  · change ((p.timers ++ timers).map Timer.id).Nodup
    rw [List.map_append, List.nodup_append]
    refine ⟨h.timerIds, ?_, fun a ha b hb => ?_⟩
    · rcases htimers with ⟨-, -, time, rfl⟩ | ⟨-, rfl⟩
      · exact List.nodup_singleton _
      · exact List.nodup_nil
    · obtain ⟨t, ht, rfl⟩ := List.mem_map.mp ha
      obtain ⟨t', ht', rfl⟩ := List.mem_map.mp hb
      rw [(htimer t' ht').2.1]
      exact (h.timer_lt t ht).ne
  · intro t ht
    change t.id < p.nextId + 1
    rcases List.mem_append.mp ht with ht | ht
    · exact (h.timer_lt t ht).trans (Nat.lt_succ_self _)
    · rw [(htimer t ht).2.1]
      exact Nat.lt_succ_self _

theorem Attached.of_iff {refs' : EntryRef → Prop} (hrefs : ∀ x, refs x ↔ refs' x) : Attached p refs' := by
  have heq : refs = refs' := funext fun x => propext (hrefs x)
  rwa [← heq]

theorem Attached.exists_info (hi : refs i) : ∃ info, p.entryInfoMap i = some info :=
  Option.isSome_iff_exists.mp ((h.info_iff i).mpr hi)

theorem Attached.refs_of_mem {t : QueueType} {node : ℕ × EntryRef} (hnode : node ∈ p.queues t) : refs node.2 := by
  obtain ⟨info, hinfo, -⟩ := h.info t node hnode
  exact (h.info_iff _).mp (Option.isSome_iff_exists.mpr ⟨info, hinfo⟩)

end Attached

/-! ## The order of the queues -/

/-- The times when entries were stored and when their timers fired. -/
def marks (trace : List CsEvent) : List (EntryRef × Bool) :=
  trace.filterMap fun
    | .stored r => some (r, false)
    | .staled r => some (r, true)
    | _ => none

/-- The queues are in the order of the last marks, and an entry whose last mark is that of its timer is stale. -/
structure Ordered (p : FifoState) (l : List (EntryRef × Bool)) : Prop where
  older : ∀ t, ((p.queues t).map Prod.snd).Pairwise (Older Prod.fst l)
  mark : ∀ r info, p.entryInfoMap r = some info → lastMark Prod.fst l r = some (r, decide (info.queueType = .stale))

section Ordered

variable {p : FifoState} {refs : EntryRef → Prop} {i : EntryRef} {info : EntryInfo} {l : List (EntryRef × Bool)}

theorem Ordered.detach (h : Ordered p l) (i : EntryRef) (info : EntryInfo) : Ordered (detach p i info) l where
  older t := (h.older t).sublist ((queues_detach_sublist p i info t).map _)
  mark r info' hr := by
    change update p.entryInfoMap i none r = some info' at hr
    by_cases hri : r = i
    · simp [hri] at hr
    · rw [update_of_ne hri] at hr
      exact h.mark r info' hr

/-- **A new mark**, and its entry at the end of a queue. -/
theorem Ordered.place (h : Ordered p l) (hatt : Attached p refs) (hi : ¬ refs i) (info : EntryInfo) (timers : List Timer) :
    Ordered (place p i info timers) (l ++ [(i, decide (info.queueType = .stale))]) where
  older t := by
    have hnot : ∀ t, i ∉ (p.queues t).map Prod.snd := by
      intro t hmem
      obtain ⟨node, hnode, rfl⟩ := List.mem_map.mp hmem
      exact hi (hatt.refs_of_mem hnode)
    change ((update p.queues info.queueType _ t).map Prod.snd).Pairwise _
    by_cases ht : t = info.queueType
    · subst ht
      rw [update_self, List.map_append]
      refine pairwise_push (m := (i, decide (info.queueType = .stale))) (h.older _) (fun r hr => ?_) (hnot _)
      obtain ⟨node, hnode, rfl⟩ := List.mem_map.mp hr
      obtain ⟨info', hinfo', -⟩ := hatt.info _ node hnode
      exact mem_map_of_lastMark (h.mark _ _ hinfo')
    · rw [update_of_ne ht]
      exact pairwise_concat (h.older t) (hnot t)
  mark r info' hr := by
    change update p.entryInfoMap i (some info) r = some info' at hr
    rw [lastMark_concat]
    by_cases hri : r = i
    · rw [hri, update_self] at hr
      rw [if_pos hri.symm, hri, Option.some.inj hr]
    · rw [update_of_ne hri] at hr
      rw [if_neg (Ne.symm hri)]
      exact h.mark r info' hr

end Ordered

/-! ## The policy and the table -/

def QueueType.rank : QueueType → ℕ
  | .unsolicited => 0
  | .stale => 1
  | .fifo => 2

/-- The class of an entry: unsolicited, stale since its timer fired, or fresh. -/
def rank (l : List (EntryRef × Bool)) (e : CsEntry) : ℕ :=
  if e.isUnsolicited then 0 else if (lastMark Prod.fst l e.ref).any Prod.snd then 1 else 2

/-- **The entry that goes is the first of its class**, and no entry is of a class before. -/
def FirstOut (before : List CsEvent) (entries : List CsEntry) (r : EntryRef) : Prop :=
  ∃ e ∈ entries, e.ref = r ∧ ∀ e' ∈ entries, e'.ref ≠ r →
    rank (marks before) e < rank (marks before) e' ∨
      (rank (marks before) e = rank (marks before) e' ∧ Older Prod.fst (marks before) r e'.ref)

structure Mirrors (s : Store FifoState) : Prop where
  attached : Attached s.policy (· ∈ s.table.refs)
  ordered : Ordered s.policy (marks s.trace)
  unsolicited : ∀ e ∈ s.table.entries, ∀ info, s.policy.entryInfoMap e.ref = some info →
    (info.queueType = .unsolicited ↔ e.isUnsolicited = true)
  evictions : EvictionsBy FirstOut s.trace

section Mirrors

variable {s : Store FifoState} {i : EntryRef} {e : CsEntry} {info : EntryInfo}

theorem detachQueue_eq (hi : s.policy.entryInfoMap i = some info) :
    detachQueue s i = some { s with policy := detach s.policy i info } := by
  rw [detachQueue, hi]
  rfl

theorem attachQueue_eq (hi : s.policy.entryInfoMap i = none) (he : s.table.get i = some e) :
    attachQueue s i = some { s with
      policy := place s.policy i
        ⟨queueTypeOf e s.now, s.policy.nextId, if queueTypeOf e s.now = .fifo then some s.policy.nextId else none⟩
        (if queueTypeOf e s.now = .fifo then [⟨s.policy.nextId, s.now + e.data.freshnessPeriod, i⟩] else []) } := by
  rw [attachQueue, hi, he]
  simp only [Option.isSome_none, Bool.false_eq_true, if_false, Option.map_some, place]
  by_cases hq : queueTypeOf e s.now = .fifo
  · simp only [if_pos hq]
  · simp only [if_neg hq, List.append_nil]

/-- **The entry that is not in a queue** goes to the end of one. -/
theorem mirrors_attach {l : List (EntryRef × Bool)} (hatt : Attached s.policy fun x => x ∈ s.table.refs ∧ x ≠ i)
    (hord : Ordered s.policy l) (hmarks : marks s.trace = l ++ [(i, false)]) (hget : s.table.get i = some e)
    (hfresh : e.isFresh s.now) (hunsol : ∀ e ∈ s.table.entries, e.ref ≠ i → ∀ info, s.policy.entryInfoMap e.ref = some info →
      (info.queueType = .unsolicited ↔ e.isUnsolicited = true)) (hev : EvictionsBy FirstOut s.trace) :
    ∃ s', attachQueue s i = some s' ∧ Mirrors s' ∧ s'.table = s.table ∧ s'.limit = s.limit := by
  have hnot : ¬ (i ∈ s.table.refs ∧ i ≠ i) := fun h => h.2 rfl
  have hnone : s.policy.entryInfoMap i = none := by
    by_contra hsome
    exact hnot ((hatt.info_iff i).mp (Option.isSome_iff_ne_none.mpr hsome))
  have hi : i ∈ s.table.refs := CsTable.mem_refs.mpr ⟨e, (s.table.get_eq_some_iff).mp hget⟩
  have hstale : queueTypeOf e s.now ≠ .stale := by
    rw [queueTypeOf, hfresh]
    split_ifs <;> simp_all
  refine ⟨_, attachQueue_eq hnone hget, ⟨?_, ?_, ?_, hev⟩, rfl, rfl⟩
  · refine (hatt.place hnot rfl ?_).of_iff fun x => ?_
    · by_cases hq : queueTypeOf e s.now = .fifo
      · exact .inl ⟨hq, if_pos hq, _, if_pos hq⟩
      · exact .inr ⟨hq, if_neg hq⟩
    · by_cases hx : x = i
      · simp [hx, hi]
      · simp [hx]
  · have hplace := hord.place hatt hnot
      ⟨queueTypeOf e s.now, s.policy.nextId, if queueTypeOf e s.now = .fifo then some s.policy.nextId else none⟩
      (if queueTypeOf e s.now = .fifo then [⟨s.policy.nextId, s.now + e.data.freshnessPeriod, i⟩] else [])
    rw [decide_eq_false hstale, ← hmarks] at hplace
    exact hplace
  · intro e' he' info hinfo
    change update s.policy.entryInfoMap i _ e'.ref = some info at hinfo
    by_cases hne : e'.ref = i
    · rw [hne, update_self] at hinfo
      have hee : e' = e := Option.some.inj (((s.table.get_eq_some_iff).mpr ⟨he', hne⟩).symm.trans hget)
      rw [← Option.some.inj hinfo, hee, queueTypeOf]
      split_ifs <;> simp_all
    · rw [update_of_ne hne] at hinfo
      exact hunsol e' he' hne info hinfo

theorem detach_again (h : Mirrors s) (hi : s.policy.entryInfoMap i = some info) :
    Attached (detach s.policy i info) (fun x => x ∈ s.table.refs ∧ x ≠ i) ∧
      Ordered (detach s.policy i info) (marks s.trace) ∧
      ∀ e ∈ s.table.entries, e.ref ≠ i → ∀ info', (detach s.policy i info).entryInfoMap e.ref = some info' →
        (info'.queueType = .unsolicited ↔ e.isUnsolicited = true) := by
  refine ⟨h.attached.detach hi, h.ordered.detach i info, fun e he hne info' hinfo' => ?_⟩
  refine h.unsolicited e he info' ?_
  change update s.policy.entryInfoMap i none e.ref = some info' at hinfo'
  rwa [update_of_ne hne] at hinfo'

theorem Mirrors.erase (h : Mirrors s) (hi : s.policy.entryInfoMap i = some info) (trace : List CsEvent)
    (hmarks : marks (s.trace ++ trace) = marks s.trace) (hev : EvictionsBy FirstOut (s.trace ++ trace)) :
    Mirrors { s with policy := detach s.policy i info, table := s.table.erase i, trace := s.trace ++ trace } := by
  obtain ⟨hatt, hord, hunsol⟩ := detach_again h hi
  refine ⟨hatt.of_iff fun x => CsTable.mem_refs_erase.symm, ?_, fun e he => ?_, hev⟩
  · rw [hmarks]
    exact hord
  · obtain ⟨he, hne⟩ := List.mem_filter.mp he
    exact hunsol e he (by simpa using hne)

theorem Mirrors.rank_eq (h : Mirrors s) (he : e ∈ s.table.entries) (hinfo : s.policy.entryInfoMap e.ref = some info) :
    rank (marks s.trace) e = info.queueType.rank := by
  have hunsol := h.unsolicited e he info hinfo
  rw [rank, h.ordered.mark _ _ hinfo]
  cases hq : info.queueType with
  | unsolicited =>
    rw [if_pos (hunsol.mp hq)]
    rfl
  | stale =>
    have hnot : ¬ e.isUnsolicited = true := fun hu => by simp [hunsol.mpr hu] at hq
    rw [if_neg hnot]
    rfl
  | fifo =>
    have hnot : ¬ e.isUnsolicited = true := fun hu => by simp [hunsol.mpr hu] at hq
    rw [if_neg hnot]
    rfl

theorem rank_injective : Injective QueueType.rank := by
  intro t t' h
  cases t <;> cases t' <;> first | rfl | cases h

theorem front_cases (p : FifoState) : (front p = none ∧ ∀ t, p.queues t = []) ∨
    ∃ t n r q, front p = some r ∧ p.queues t = (n, r) :: q ∧ ∀ t', t'.rank < t.rank → p.queues t' = [] := by
  rw [front]
  cases hu : p.queues .unsolicited with
  | cons node q => exact .inr ⟨.unsolicited, node.1, node.2, q, rfl, hu, fun t' ht' => absurd ht' (Nat.not_lt_zero _)⟩
  | nil =>
    cases hs : p.queues .stale with
    | cons node q =>
      refine .inr ⟨.stale, node.1, node.2, q, rfl, hs, fun t' ht' => ?_⟩
      cases t' with
      | unsolicited => exact hu
      | stale => exact absurd ht' (lt_irrefl _)
      | fifo => exact absurd ht' (by decide)
    | nil =>
      cases hf : p.queues .fifo with
      | cons node q =>
        refine .inr ⟨.fifo, node.1, node.2, q, rfl, hf, fun t' ht' => ?_⟩
        cases t' with
        | unsolicited => exact hu
        | stale => exact hs
        | fifo => exact absurd ht' (lt_irrefl _)
      | nil =>
        refine .inl ⟨rfl, fun t => ?_⟩
        cases t with
        | unsolicited => exact hu
        | stale => exact hs
        | fifo => exact hf

/-- **One eviction.** -/
theorem evictOne_eq (h : Mirrors s) (hsize : 0 < s.size) :
    ∃ s', evictOne s = some s' ∧ Mirrors s' ∧ s'.size + 1 = s.size ∧ s'.limit = s.limit := by
  rcases front_cases s.policy with ⟨-, hempty⟩ | ⟨t, n, r, q, hfront, hq, hbefore⟩
  · obtain ⟨e, he⟩ := List.exists_mem_of_length_pos hsize
    obtain ⟨info, hinfo⟩ := h.attached.exists_info (CsTable.mem_refs.mpr ⟨e, he, rfl⟩)
    have hnode := h.attached.node _ _ hinfo
    rw [hempty] at hnode
    cases hnode
  have hmem : (n, r) ∈ s.policy.queues t := hq ▸ List.mem_cons_self
  have hr : r ∈ s.table.refs := h.attached.refs_of_mem hmem
  obtain ⟨info, hinfo, htype, -⟩ := h.attached.info t _ hmem
  have hmarks : marks (s.trace ++ [CsEvent.evicted s.table.entries r]) = marks s.trace := by
    rw [marks, List.filterMap_append]
    exact List.append_nil _
  refine ⟨{ s with policy := detach s.policy r info }.evict r, ?_, ?_, ?_, rfl⟩
  · rw [evictOne, hfront, Option.bind_some, detachQueue_eq hinfo, Option.map_some]
  · refine h.erase hinfo _ hmarks (h.evictions.concat fun entries x heq => ?_)
    obtain ⟨rfl, rfl⟩ := CsEvent.evicted.inj heq
    obtain ⟨e, he, her⟩ := CsTable.mem_refs.mp hr
    refine ⟨e, he, her, fun e' he' hne => ?_⟩
    obtain ⟨info', hinfo'⟩ := h.attached.exists_info (CsTable.mem_refs.mpr ⟨e', he', rfl⟩)
    rw [h.rank_eq he (her ▸ hinfo), h.rank_eq he' hinfo', htype]
    have hnode := h.attached.node _ _ hinfo'
    rcases lt_trichotomy t.rank info'.queueType.rank with hlt | heq | hlt
    · exact .inl hlt
    · have htt := rank_injective heq
      rw [← htt, hq] at hnode
      have holder := h.ordered.older t
      rw [hq, List.map_cons, List.pairwise_cons] at holder
      refine .inr ⟨heq, holder.1 e'.ref ?_⟩
      rcases List.mem_cons.mp hnode with hnode | hnode
      · exact absurd (congrArg Prod.snd hnode) hne
      · exact List.mem_map_of_mem hnode
    · rw [hbefore _ hlt] at hnode
      cases hnode
  · exact CsTable.length_erase hr

theorem evictLoop_eq (h : Mirrors s) {fuel : ℕ} (hfuel : s.size ≤ fuel) :
    ∃ s', evictLoop fuel s = some s' ∧ Mirrors s' ∧ s'.size ≤ s'.limit := by
  induction fuel generalizing s with
  | zero =>
    rw [evictLoop, if_neg (by omega)]
    exact ⟨s, rfl, h, by omega⟩
  | succ fuel ih =>
    rw [evictLoop]
    by_cases hsize : s.size > s.limit
    · obtain ⟨s', hs', hmirrors, hsize', -⟩ := evictOne_eq h (by omega)
      rw [if_pos hsize, hs']
      exact ih hmirrors (by omega)
    · rw [if_neg hsize]
      exact ⟨s, rfl, h, by omega⟩

/-- **A timer fires**, and its entry goes to the queue of stale Data. -/
theorem fire_eq (h : Mirrors s) (event : ℕ) :
    ∃ s', fire s event = some s' ∧ Mirrors s' ∧ s'.table = s.table ∧ s'.limit = s.limit := by
  rw [fire]
  cases hfind : s.policy.timers.find? fun t => t.id = event ∧ t.time ≤ s.now with
  | none => exact ⟨s, rfl, h, rfl, rfl⟩
  | some t =>
    have ht := List.mem_of_find?_eq_some hfind
    have hid : t.id = event := by
      have hfound := List.find?_some hfind
      rw [decide_eq_true_iff] at hfound
      exact hfound.1
    obtain ⟨info, hinfo, htype, hevent⟩ := h.attached.timerInfo t ht
    have hr : t.ref ∈ s.table.refs := (h.attached.info_iff _).mp (Option.isSome_iff_exists.mpr ⟨info, hinfo⟩)
    obtain ⟨hatt, hord, hunsol⟩ := detach_again h hinfo
    have hnot : ¬ (t.ref ∈ s.table.refs ∧ t.ref ≠ t.ref) := fun h => h.2 rfl
    -- the queue of fresh Data loses the entry, and its timer is gone
    have hpolicy : ∃ s', moveToStaleQueue
        { s with
          policy := { s.policy with timers := s.policy.timers.filter fun t => t.id ≠ event }
          trace := s.trace ++ [.staled t.ref] } t.ref = some s' ∧
        s' = { s with
          policy := place (detach s.policy t.ref info) t.ref
            { info with queueType := .stale, queueIt := s.policy.nextId } []
          trace := s.trace ++ [.staled t.ref] } := by
      have htimers : (s.policy.timers.filter fun t => info.moveStaleEventId ≠ some t.id) =
          s.policy.timers.filter fun t => t.id ≠ event := by
        refine List.filter_congr fun x _ => ?_
        rw [hevent, hid]
        simp [eq_comm]
      refine ⟨_, ?_, rfl⟩
      simp only [moveToStaleQueue, hinfo, Option.bind_some, htype, if_true, place, detach, htimers, List.append_nil,
        update_idem]
    obtain ⟨s', hs', rfl⟩ := hpolicy
    refine ⟨_, hs', ⟨?_, ?_, fun e he info' hinfo' => ?_, ?_⟩, rfl, rfl⟩
    · refine (hatt.place hnot rfl (.inr ⟨by simp, rfl⟩)).of_iff fun x => ?_
      by_cases hx : x = t.ref
      · simp [hx, hr]
      · simp [hx]
    · have hplace := hord.place hatt hnot { info with queueType := .stale, queueIt := s.policy.nextId } []
      have hmarks : marks (s.trace ++ [CsEvent.staled t.ref]) = marks s.trace ++ [(t.ref, true)] := List.filterMap_append
      rw [hmarks]
      exact hplace
    · change update (detach s.policy t.ref info).entryInfoMap t.ref _ e.ref = some info' at hinfo'
      by_cases hne : e.ref = t.ref
      · rw [hne, update_self] at hinfo'
        have hold := h.unsolicited e he info (hne ▸ hinfo)
        rw [htype] at hold
        rw [← Option.some.inj hinfo', ← hold]
        simp
      · rw [update_of_ne hne] at hinfo'
        exact hunsol e he hne info' hinfo'
    · exact h.evictions.concat fun entries x heq => by cases heq

/-- **The policy is lawful.** -/
theorem lawful : priorityFifoPolicy.Lawful fun s => Mirrors s ∧ s.size ≤ s.limit where
  init limit := by
    refine ⟨⟨⟨?_, ?_, ?_, ?_, ?_, ?_, ?_, ?_, ?_⟩, ⟨fun t => List.Pairwise.nil, ?_⟩, ?_, ?_⟩, Nat.zero_le _⟩
    · intro r
      simp [priorityFifoPolicy, CsTable.refs, CsTable.empty]
    all_goals simp [priorityFifoPolicy, CsTable.empty, EvictionsBy]
  frame s now shouldAdmit shouldServe h _ :=
    ⟨⟨h.1.attached, h.1.ordered, h.1.unsolicited, h.1.evictions⟩, h.2⟩
  afterInsert s table e h _ hnew hperm hfresh := by
    have hrefs : table.refs.Perm (e.ref :: s.table.refs) := hperm.map CsEntry.ref
    have hatt : Attached s.policy fun x => x ∈ table.refs ∧ x ≠ e.ref := by
      refine h.1.attached.of_iff fun x => ?_
      rw [hrefs.mem_iff, List.mem_cons]
      by_cases hx : x = e.ref
      · simp [hx, hnew]
      · simp [hx]
    have hget : table.get e.ref = some e := (table.get_eq_some_iff).mpr ⟨hperm.mem_iff.mpr List.mem_cons_self, rfl⟩
    have hmarks : marks (s.trace ++ [CsEvent.stored e.ref]) = marks s.trace ++ [(e.ref, false)] := List.filterMap_append
    have hev : EvictionsBy FirstOut (s.trace ++ [CsEvent.stored e.ref]) := h.1.evictions.concat fun _ _ heq => by cases heq
    obtain ⟨s₁, hs₁, hmirrors, -, -⟩ := mirrors_attach
      (s := { s with table := table, trace := s.trace ++ [CsEvent.stored e.ref] }) hatt h.1.ordered hmarks hget hfresh
      (fun e' he' hne => h.1.unsolicited e' ((List.mem_cons.mp (hperm.mem_iff.mp he')).resolve_left fun heq => hne (by
        rw [heq]))) hev
    obtain ⟨s', hs', hmirrors', hsize⟩ := evictLoop_eq hmirrors le_rfl
    refine ⟨s', ?_, hmirrors', hsize⟩
    change (attachQueue _ e.ref).bind evictEntries = some s'
    rw [hs₁]
    exact hs'
  afterRefresh s r f hf h hr hfresh := by
    obtain ⟨info, hinfo⟩ := h.1.attached.exists_info hr
    obtain ⟨hatt, hord, hunsol⟩ := detach_again h.1 hinfo
    obtain ⟨e, he, her, hget⟩ := CsTable.get_modify hf hr
    have hmarks : marks (s.trace ++ [CsEvent.stored r]) = marks s.trace ++ [(r, false)] := List.filterMap_append
    have hev : EvictionsBy FirstOut (s.trace ++ [CsEvent.stored r]) := h.1.evictions.concat fun _ _ heq => by cases heq
    obtain ⟨s', hs', hmirrors, htable, hlimit⟩ := mirrors_attach
      (s := { s with table := s.table.modify r f hf, trace := s.trace ++ [CsEvent.stored r],
                     policy := detach s.policy r info })
      (hatt.of_iff fun x => by rw [CsTable.refs_modify]) hord hmarks hget (hfresh e)
      (fun e' he' hne => hunsol e' (CsTable.mem_modify_of_ne hf he' hne) hne) hev
    refine ⟨s', ?_, hmirrors, ?_⟩
    · change (detachQueue _ r).bind (attachQueue · r) = some s'
      rw [detachQueue_eq (s := { s with table := s.table.modify r f hf, trace := s.trace ++ [CsEvent.stored r] }) hinfo]
      exact hs'
    · rw [Store.size, htable, hlimit, CsTable.modify, List.length_map]
      exact h.2
  beforeErase s r h hr := by
    obtain ⟨info, hinfo⟩ := h.1.attached.exists_info hr
    refine ⟨_, detachQueue_eq hinfo, rfl, ?_, (List.length_filter_le _ _).trans h.2⟩
    have herase := h.1.erase hinfo [] (by rw [List.append_nil]) (by rw [List.append_nil]; exact h.1.evictions)
    rwa [List.append_nil] at herase
  beforeUse s r h hr := by
    refine ⟨_, if_pos ((h.1.attached.info_iff r).mpr hr), ⟨h.1.attached, ?_, h.1.unsolicited, ?_⟩, h.2⟩
    · have hmarks : marks (s.trace ++ [CsEvent.used r]) = marks s.trace := by
        rw [marks, List.filterMap_append]
        exact List.append_nil _
      rw [hmarks]
      exact h.1.ordered
    · exact h.1.evictions.concat fun _ _ heq => by cases heq
  evictEntries s limit h := by
    have hs : Mirrors { s with limit := limit } := ⟨h.1.attached, h.1.ordered, h.1.unsolicited, h.1.evictions⟩
    exact evictLoop_eq hs le_rfl
  fire s event h := by
    obtain ⟨s', hs', hmirrors, htable, hlimit⟩ := fire_eq h.1 event
    refine ⟨s', hs', hmirrors, ?_⟩
    rw [Store.size, htable, hlimit]
    exact h.2

end Mirrors

/-! ## Runs -/

def queued (p : FifoState) : List EntryRef :=
  (p.queues .unsolicited ++ p.queues .stale ++ p.queues .fifo).map Prod.snd

section Runs

variable {p : FifoState} {refs : EntryRef → Prop} {s : Store FifoState}

theorem Attached.eq_of_ref (h : Attached p refs) {t t' : QueueType} {node node' : ℕ × EntryRef}
    (hnode : node ∈ p.queues t) (hnode' : node' ∈ p.queues t') (href : node.2 = node'.2) : t = t' ∧ node = node' := by
  obtain ⟨info, hinfo, rfl, hit⟩ := h.info t node hnode
  obtain ⟨info', hinfo', rfl, hit'⟩ := h.info t' node' hnode'
  obtain rfl := Option.some.inj (hinfo.symm.trans ((congrArg p.entryInfoMap href).trans hinfo'))
  exact ⟨rfl, Prod.ext (hit.symm.trans hit') href⟩

theorem Attached.nodup_queue (h : Attached p refs) (t : QueueType) : ((p.queues t).map Prod.snd).Nodup := by
  refine List.Nodup.map_on (fun node hnode node' hnode' href => ?_) ((h.ids t).of_map _)
  exact (h.eq_of_ref hnode hnode' href).2

theorem Attached.disjoint (h : Attached p refs) {t t' : QueueType} (hne : t ≠ t') :
    ∀ a ∈ (p.queues t).map Prod.snd, ∀ b ∈ (p.queues t').map Prod.snd, a ≠ b := by
  intro a ha b hb heq
  obtain ⟨node, hnode, rfl⟩ := List.mem_map.mp ha
  obtain ⟨node', hnode', rfl⟩ := List.mem_map.mp hb
  exact hne (h.eq_of_ref hnode hnode' heq).1

/-- **Every entry of the table is at one place** of the queues. -/
theorem Mirrors.perm (h : Mirrors s) : (queued s.policy).Perm s.table.refs := by
  have hnodup : (queued s.policy).Nodup := by
    rw [queued, List.map_append, List.map_append, List.nodup_append, List.nodup_append]
    refine ⟨⟨h.attached.nodup_queue _, h.attached.nodup_queue _, h.attached.disjoint (by decide)⟩,
      h.attached.nodup_queue _, fun a ha => ?_⟩
    rcases List.mem_append.mp ha with ha | ha
    · exact h.attached.disjoint (t := .unsolicited) (by decide) a ha
    · exact h.attached.disjoint (t := .stale) (by decide) a ha
  refine (List.perm_ext_iff_of_nodup hnodup s.table.nodup_refs).mpr fun r => ?_
  rw [queued, List.mem_map]
  constructor
  · rintro ⟨node, hnode, rfl⟩
    rw [List.mem_append, List.mem_append] at hnode
    rcases hnode with (hnode | hnode) | hnode <;> exact h.attached.refs_of_mem hnode
  · intro hr
    obtain ⟨info, hinfo⟩ := h.attached.exists_info hr
    have hnode := h.attached.node _ _ hinfo
    refine ⟨(info.queueIt, r), ?_, rfl⟩
    rw [List.mem_append, List.mem_append]
    cases hq : info.queueType with
    | unsolicited => exact .inl (.inl (hq ▸ hnode))
    | stale => exact .inl (.inr (hq ▸ hnode))
    | fifo => exact .inr (hq ▸ hnode)

/-- **The timers are those of fresh entries.** -/
theorem Mirrors.perm_timers (h : Mirrors s) :
    (s.policy.timers.map Timer.ref).Perm ((s.policy.queues .fifo).map Prod.snd) := by
  have hnodup : (s.policy.timers.map Timer.ref).Nodup := by
    refine List.Nodup.map_on (fun t ht t' ht' href => ?_) (h.attached.timerIds.of_map _)
    obtain ⟨info, hinfo, -, hid⟩ := h.attached.timerInfo t ht
    obtain ⟨info', hinfo', -, hid'⟩ := h.attached.timerInfo t' ht'
    obtain rfl := Option.some.inj (hinfo.symm.trans ((congrArg s.policy.entryInfoMap href).trans hinfo'))
    exact List.inj_on_of_nodup_map h.attached.timerIds ht ht' (Option.some.inj (hid.symm.trans hid'))
  refine (List.perm_ext_iff_of_nodup hnodup (h.attached.nodup_queue _)).mpr fun r => ?_
  rw [List.mem_map, List.mem_map]
  constructor
  · rintro ⟨t, ht, rfl⟩
    obtain ⟨info, hinfo, htype, -⟩ := h.attached.timerInfo t ht
    have hnode := h.attached.node _ _ hinfo
    rw [htype] at hnode
    exact ⟨_, hnode, rfl⟩
  · rintro ⟨node, hnode, rfl⟩
    obtain ⟨info, hinfo, htype, -⟩ := h.attached.info _ node hnode
    obtain ⟨t, ht, hr, -⟩ := h.attached.timer _ info hinfo htype
    exact ⟨t, ht, hr⟩

end Runs

end PriorityFifo

end Ns3Ndn
