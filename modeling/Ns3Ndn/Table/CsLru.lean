import Ns3Ndn.Table.CsStore

/-!
# Least recently used

`NFD/daemon/table/cs-policy-lru.cpp`: the policy `lru` keeps the entries in one queue. An entry goes to the end of the
queue when it is stored or used, and the entries at the front are evicted.

* `LeastRecent`: every other entry was stored or used after the last time the evicted entry was;
* **`LruPolicy.lawful`**: the queue has the entries of the table, and evicts by `LeastRecent`.
-/

namespace Ns3Ndn

open RecencyLib

namespace LruPolicy

abbrev Queue := List EntryRef

def insertToQueue (s : Store Queue) (i : EntryRef) (isNewEntry : Bool) : Option (Store Queue) :=
  let isNew := decide (i ∉ s.policy)
  let queue := if isNew then s.policy ++ [i] else s.policy
  if isNew = isNewEntry then some { s with policy := if isNewEntry then queue else queue.erase i ++ [i] } else none

def evictLoop : ℕ → Store Queue → Option (Store Queue)
  | 0, s => if s.size > s.limit then none else some s
  | fuel + 1, s =>
    if s.size > s.limit then
      s.policy.head?.bind fun i => evictLoop fuel ({ s with policy := s.policy.tail }.evict i)
    else some s

def evictEntries (s : Store Queue) : Option (Store Queue) := evictLoop s.size s

end LruPolicy

open LruPolicy in
/-- `LruPolicy`. -/
def lruPolicy : Policy LruPolicy.Queue where
  init := []
  afterInsert s i := (insertToQueue s i true).bind evictEntries
  afterRefresh s i := insertToQueue s i false
  beforeErase s i := some { s with policy := s.policy.erase i }
  beforeUse s i := insertToQueue s i false
  evictEntries := evictEntries
  fire s _ := some s

namespace LruPolicy

/-- The entries in the order in which they were stored or used. -/
def marks (trace : List CsEvent) : List EntryRef :=
  trace.filterMap fun
    | .stored r => some r
    | .used r => some r
    | _ => none

/-- **The entry that goes is the least recently used**: every other entry was stored or used after it. -/
def LeastRecent (before : List CsEvent) (entries : List CsEntry) (r : EntryRef) : Prop :=
  (∃ e ∈ entries, e.ref = r) ∧ ∀ e ∈ entries, e.ref ≠ r → Older id (marks before) r e.ref

/-- The queue has the entries of the table, in the order of their last marks. -/
structure Mirrors (s : Store Queue) : Prop where
  perm : s.policy.Perm s.table.refs
  marked : ∀ r ∈ s.policy, r ∈ marks s.trace
  older : s.policy.Pairwise (Older id (marks s.trace))
  evictions : EvictionsBy LeastRecent s.trace

variable {s : Store Queue} {r : EntryRef}

theorem Mirrors.nodup (h : Mirrors s) : s.policy.Nodup := h.perm.nodup_iff.mpr s.table.nodup_refs

theorem Mirrors.length (h : Mirrors s) : s.policy.length = s.size := by
  rw [h.perm.length_eq, CsTable.refs, List.length_map, Store.size]

theorem Mirrors.push (h : Mirrors s) (table : CsTable) (event : CsEvent) {queue : Queue}
    (hmark : marks [event] = [r]) (hevent : ∀ entries x, event ≠ .evicted entries x)
    (hsub : queue.Sublist s.policy) (hr : r ∉ queue) (hperm : (r :: queue).Perm table.refs) :
    Mirrors { s with table := table, policy := queue ++ [r], trace := s.trace ++ [event] } := by
  have hmarks : marks (s.trace ++ [event]) = marks s.trace ++ [r] := by
    rw [← hmark]
    exact List.filterMap_append
  refine ⟨(List.perm_append_singleton r queue).trans hperm, ?_, ?_, ?_⟩
  · intro x hx
    rw [hmarks, List.mem_append]
    exact (List.mem_append.mp hx).imp (fun hx => h.marked x (hsub.subset hx)) id
  · rw [hmarks]
    change (queue ++ [id r]).Pairwise _
    refine pairwise_push (h.older.sublist hsub) (fun x hx => ?_) hr
    rw [List.map_id]
    exact h.marked x (hsub.subset hx)
  · exact h.evictions.concat fun entries x heq => absurd heq (hevent entries x)

/-- **One eviction.** -/
theorem Mirrors.evict (h : Mirrors s) {queue : Queue} (hqueue : s.policy = r :: queue) :
    Mirrors ({ s with policy := queue }.evict r) := by
  have hnodup := h.nodup
  rw [hqueue] at hnodup
  have hnot := (List.nodup_cons.mp hnodup).1
  have hsub : queue.Sublist s.policy := hqueue ▸ List.sublist_cons_self r queue
  have holder := h.older
  rw [hqueue, List.pairwise_cons] at holder
  have hmarks : ∀ entries, marks (s.trace ++ [CsEvent.evicted entries r]) = marks s.trace := by
    intro entries
    rw [marks, List.filterMap_append]
    exact List.append_nil _
  refine ⟨?_, ?_, ?_, ?_⟩
  · refine (List.perm_ext_iff_of_nodup (hnodup.of_cons) (CsTable.nodup_refs _)).mpr fun x => ?_
    change x ∈ queue ↔ x ∈ (s.table.erase r).refs
    rw [CsTable.mem_refs_erase, ← h.perm.mem_iff, hqueue, List.mem_cons]
    constructor
    · intro hx
      exact ⟨.inr hx, fun hxr => hnot (hxr ▸ hx)⟩
    · rintro ⟨hx, hne⟩
      exact hx.resolve_left hne
  · intro x hx
    change x ∈ marks (s.trace ++ _)
    rw [hmarks]
    exact h.marked x (hsub.subset hx)
  · change queue.Pairwise (Older id (marks (s.trace ++ _)))
    rw [hmarks]
    exact holder.2
  · refine h.evictions.concat fun entries x heq => ?_
    obtain ⟨rfl, rfl⟩ := CsEvent.evicted.inj heq
    have hmem : r ∈ s.table.refs := h.perm.mem_iff.mp (hqueue ▸ List.mem_cons_self)
    refine ⟨CsTable.mem_refs.mp hmem, fun e he hne => ?_⟩
    have hin : e.ref ∈ s.policy := h.perm.mem_iff.mpr (CsTable.mem_refs.mpr ⟨e, he, rfl⟩)
    rw [hqueue] at hin
    exact holder.1 e.ref ((List.mem_cons.mp hin).resolve_left hne)

theorem evictLoop_eq (h : Mirrors s) {fuel : ℕ} (hfuel : s.size ≤ fuel) :
    ∃ s', evictLoop fuel s = some s' ∧ Mirrors s' ∧ s'.size ≤ s'.limit := by
  induction fuel generalizing s with
  | zero =>
    rw [evictLoop, if_neg (by omega)]
    exact ⟨s, rfl, h, by omega⟩
  | succ fuel ih =>
    rw [evictLoop]
    by_cases hsize : s.size > s.limit
    · rw [if_pos hsize]
      have hlength := h.length
      cases hqueue : s.policy with
      | nil =>
        rw [hqueue, List.length_nil] at hlength
        omega
      | cons i queue =>
        rw [List.head?_cons, Option.bind_some, List.tail_cons]
        have hevict := h.evict hqueue
        refine ih hevict ?_
        have hlength' := hevict.length
        rw [hqueue, List.length_cons] at hlength
        change queue.length = _ at hlength'
        omega
    · rw [if_neg hsize]
      exact ⟨s, rfl, h, by omega⟩

theorem size_eq_length_refs (s : Store Queue) : s.size = s.table.refs.length := by
  rw [CsTable.refs, List.length_map, Store.size]

theorem insertToQueue_again (h : Mirrors s) (hr : r ∈ s.table.refs) (table : CsTable) (event : CsEvent)
    (hmark : marks [event] = [r]) (hevent : ∀ entries x, event ≠ .evicted entries x) (htable : table.refs = s.table.refs) :
    ∃ s', insertToQueue { s with table := table, trace := s.trace ++ [event] } r false = some s' ∧ Mirrors s' ∧
      s'.table = table ∧ s'.limit = s.limit := by
  have hmem : r ∈ s.policy := h.perm.mem_iff.mpr hr
  refine ⟨{ s with table := table, policy := s.policy.erase r ++ [r], trace := s.trace ++ [event] }, ?_, ?_, rfl, rfl⟩
  · simp [insertToQueue, hmem]
  · refine h.push table event hmark hevent List.erase_sublist ?_ ?_
    · exact fun hx => (h.nodup.mem_erase_iff.mp hx).1 rfl
    · rw [htable]
      exact (List.perm_cons_erase hmem).symm.trans h.perm

/-- **The policy is lawful.** -/
theorem lawful : lruPolicy.Lawful fun s => Mirrors s ∧ s.size ≤ s.limit where
  init limit := by
    refine ⟨⟨List.Perm.refl _, by simp [lruPolicy], List.Pairwise.nil, ?_⟩, Nat.zero_le _⟩
    intro before entries r after heq
    simp at heq
  frame s now shouldAdmit shouldServe h _ := ⟨⟨h.1.perm, h.1.marked, h.1.older, h.1.evictions⟩, h.2⟩
  afterInsert s table e h _ hnew hperm _ := by
    have hrefs : table.refs.Perm (e.ref :: s.table.refs) := hperm.map CsEntry.ref
    have hnot : e.ref ∉ s.policy := fun hmem => hnew (h.1.perm.mem_iff.mp hmem)
    have hpush := h.1.push table (.stored e.ref) rfl (by simp) (List.Sublist.refl _) hnot
      ((h.1.perm.cons e.ref).trans hrefs.symm)
    obtain ⟨s', hs', hmirrors, hsize⟩ := evictLoop_eq hpush le_rfl
    refine ⟨s', ?_, hmirrors, hsize⟩
    change (insertToQueue _ e.ref true).bind evictEntries = some s'
    rw [insertToQueue]
    simp only [hnot, not_false_eq_true, decide_true, if_true, Option.bind_some]
    exact hs'
  afterRefresh s r f hf h hr _ := by
    obtain ⟨s', hs', hmirrors, htable, hlimit⟩ := insertToQueue_again h.1 hr _ (.stored r) rfl (by simp)
      (CsTable.refs_modify r f hf)
    refine ⟨s', hs', hmirrors, ?_⟩
    have hsize := h.2
    rw [size_eq_length_refs] at hsize ⊢
    rw [htable, CsTable.refs_modify, hlimit]
    exact hsize
  beforeErase s r h hr := by
    refine ⟨_, rfl, rfl, ⟨?_, ?_, ?_, h.1.evictions⟩, ?_⟩
    · refine (List.perm_ext_iff_of_nodup (h.1.nodup.erase r) (CsTable.nodup_refs _)).mpr fun x => ?_
      rw [CsTable.mem_refs_erase, h.1.nodup.mem_erase_iff, h.1.perm.mem_iff, and_comm]
    · exact fun x hx => h.1.marked x (List.mem_of_mem_erase hx)
    · exact h.1.older.sublist List.erase_sublist
    · exact (List.length_filter_le _ _).trans h.2
  beforeUse s r h hr := by
    obtain ⟨s', hs', hmirrors, htable, hlimit⟩ := insertToQueue_again h.1 hr s.table (.used r) rfl (by simp) rfl
    refine ⟨s', hs', hmirrors, ?_⟩
    have hsize := h.2
    rw [size_eq_length_refs] at hsize ⊢
    rw [htable, hlimit]
    exact hsize
  evictEntries s limit h := by
    have hs : Mirrors { s with limit := limit } := ⟨h.1.perm, h.1.marked, h.1.older, h.1.evictions⟩
    exact evictLoop_eq hs le_rfl
  fire s _ h := ⟨s, rfl, h⟩

end LruPolicy

end Ns3Ndn
