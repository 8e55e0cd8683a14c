import Ns3Ndn.Lib.Buckets
import Ns3Ndn.Lib.Recency
import Ns3Ndn.Table.Cs

/-!
# The Content Store and its policy

`NFD/daemon/table/cs.cpp` and `cs-policy.cpp`: the table and the replacement policy call each other. The table tells the
policy about entries that are new, stored again, used or erased. The policy tells the table which entries to evict.

An iterator of the table is an `EntryRef`, the name and the digest of its entry. `trace` is a record of what happened,
which no call reads.

* `Policy.Lawful`: what each call of the policy keeps;
* **`Policy.Lawful.run`**: a lawful policy keeps it along every run, and no assertion fails.
-/

namespace Ns3Ndn

open BucketLib

/-- An iterator of the table. -/
abbrev EntryRef := Name × Component

namespace CsEntry

def ref (e : CsEntry) : EntryRef := (e.name, e.digest)

def updateFreshUntil (now : ℕ) (e : CsEntry) : CsEntry := { e with freshUntil := now + e.data.freshnessPeriod }

/-- `clearUnsolicited`, when solicited Data is stored again. -/
def solicit (isUnsolicited : Bool) (e : CsEntry) : CsEntry :=
  if e.isUnsolicited && ! isUnsolicited then { e with isUnsolicited := false } else e

theorem ref_eq_of_data {e e' : CsEntry} (h : e.data = e'.data) : e.ref = e'.ref := by
  rw [ref, ref, name, name, digest, digest, h]

theorem data_solicit (isUnsolicited : Bool) (e : CsEntry) : (e.solicit isUnsolicited).data = e.data := by
  rw [solicit]
  split_ifs <;> rfl

end CsEntry

/-! ## Changes of the table -/

theorem compareDataWithData_of_data {a b a' b' : CsEntry} (ha : a.data = a'.data) (hb : b.data = b'.data) :
    compareDataWithData a b = compareDataWithData a' b' := by
  rw [compareDataWithData, compareDataWithData, CsEntry.name, CsEntry.name, CsEntry.name, CsEntry.name, CsEntry.digest,
    CsEntry.digest, CsEntry.digest, CsEntry.digest, ha, hb]

theorem dataKey_eq_iff (a b : CsEntry) : dataKey a = dataKey b ↔ a.ref = b.ref := by
  rw [dataKey, dataKey, CsEntry.ref, CsEntry.ref, toLex_inj, Prod.mk.injEq, Prod.mk.injEq, WithBot.coe_inj]

namespace CsTable

variable (table : CsTable)

def empty : CsTable where
  entries := []
  sorted := List.Pairwise.nil
  valid := by simp

def refs : List EntryRef := table.entries.map CsEntry.ref

def get (r : EntryRef) : Option CsEntry := table.entries.find? fun e => e.ref = r

theorem nodup_refs : table.refs.Nodup := by
  refine List.Pairwise.map CsEntry.ref ?_ table.sorted
  intro a b hab heq
  rw [compareDataWithData_lt_iff] at hab
  exact hab.ne ((dataKey_eq_iff a b).mpr heq)

theorem get_eq_some_iff {r : EntryRef} {e : CsEntry} : table.get r = some e ↔ e ∈ table.entries ∧ e.ref = r :=
  find?_key_eq_some_iff table.nodup_refs

theorem sorted_insertBy {e : CsEntry} (h : table.get e.ref = none) :
    (insertBy (fun a b => compareDataWithData a b == .lt) table.entries e).Pairwise
      fun a b => compareDataWithData a b = .lt := by
  refine pairwise_insertBy e table.sorted ?_ (fun x _ hx => beq_iff_eq.mp hx) fun x hx hbefore => ?_
  · intro x y z hxy hyz
    rw [compareDataWithData_lt_iff] at hxy hyz ⊢
    exact hxy.trans hyz
  · rw [beq_eq_false_iff_ne, ne_eq, compareDataWithData_lt_iff, not_lt] at hbefore
    rw [compareDataWithData_lt_iff]
    refine lt_of_le_of_ne hbefore fun heq => ?_
    have hnone := List.find?_eq_none.mp h x hx
    rw [decide_eq_true_iff] at hnone
    exact hnone ((dataKey_eq_iff x e).mp heq)

def emplace (e : CsEntry) (valid : e.Valid) : CsTable × Bool :=
  if h : table.get e.ref = none then
    ({ entries := insertBy (fun a b => compareDataWithData a b == .lt) table.entries e
       sorted := table.sorted_insertBy h
       valid := by
         intro x hx
         rcases List.mem_cons.mp ((insertBy_perm _ _ _).mem_iff.mp hx) with rfl | hx
         · exact valid
         · exact table.valid x hx }, true)
  else (table, false)

def modify (r : EntryRef) (f : CsEntry → CsEntry) (hf : ∀ e, (f e).data = e.data) : CsTable where
  entries := table.entries.map fun e => if e.ref = r then f e else e
  sorted := by
    refine List.Pairwise.map _ ?_ table.sorted
    intro a b hab
    have hdata : ∀ e, (if e.ref = r then f e else e).data = e.data := by
      intro e
      split_ifs
      · exact hf e
      · rfl
    rwa [compareDataWithData_of_data (hdata a) (hdata b)]
  valid := by
    intro x hx
    obtain ⟨e, he, rfl⟩ := List.mem_map.mp hx
    have hvalid := table.valid e he
    rw [CsEntry.Valid, CsEntry.name, CsEntry.digest] at hvalid ⊢
    split_ifs
    · rwa [hf e]
    · exact hvalid

def erase (r : EntryRef) : CsTable where
  entries := table.entries.filter fun e => e.ref ≠ r
  sorted := table.sorted.filter _
  valid e he := table.valid e (List.mem_filter.mp he).1

variable {table} {r : EntryRef} {e : CsEntry}

theorem mem_refs : r ∈ table.refs ↔ ∃ e ∈ table.entries, e.ref = r := List.mem_map

theorem get_eq_none_iff : table.get r = none ↔ r ∉ table.refs := by
  rw [get, List.find?_eq_none, mem_refs]
  simp

theorem refs_modify (r : EntryRef) (f : CsEntry → CsEntry) (hf : ∀ e, (f e).data = e.data) :
    (table.modify r f hf).refs = table.refs := by
  rw [refs, modify, List.map_map, refs]
  refine List.map_congr_left fun e _ => ?_
  rw [Function.comp_apply]
  split_ifs
  · exact CsEntry.ref_eq_of_data (hf e)
  · rfl

theorem mem_refs_erase {x : EntryRef} : x ∈ (table.erase r).refs ↔ x ∈ table.refs ∧ x ≠ r := by
  rw [refs, erase, List.mem_map, mem_refs]
  constructor
  · rintro ⟨e, he, rfl⟩
    rw [List.mem_filter] at he
    exact ⟨⟨e, he.1, rfl⟩, by simpa using he.2⟩
  · rintro ⟨⟨e, he, rfl⟩, hne⟩
    exact ⟨e, List.mem_filter.mpr ⟨he, by simpa using hne⟩, rfl⟩

theorem refs_perm_erase (h : r ∈ table.refs) : table.refs.Perm (r :: (table.erase r).refs) := by
  have hnodup : (r :: (table.erase r).refs).Nodup := by
    refine List.nodup_cons.mpr ⟨fun hr => ?_, nodup_refs _⟩
    exact (mem_refs_erase.mp hr).2 rfl
  refine (List.perm_ext_iff_of_nodup table.nodup_refs hnodup).mpr fun x => ?_
  rw [List.mem_cons, mem_refs_erase]
  by_cases hx : x = r
  · simp [hx, h]
  · simp [hx]

theorem length_erase (h : r ∈ table.refs) : (table.erase r).entries.length + 1 = table.entries.length := by
  have hlength := (refs_perm_erase h).length_eq
  rw [List.length_cons, refs, refs, List.length_map, List.length_map] at hlength
  exact hlength.symm

theorem mem_modify_of_ne {f : CsEntry → CsEntry} (hf : ∀ e, (f e).data = e.data)
    (he : e ∈ (table.modify r f hf).entries) (hne : e.ref ≠ r) : e ∈ table.entries := by
  obtain ⟨x, hx, rfl⟩ := List.mem_map.mp he
  by_cases hxr : x.ref = r
  · rw [if_pos hxr] at hne
    exact absurd ((CsEntry.ref_eq_of_data (hf x)).trans hxr) hne
  · rwa [if_neg hxr]

theorem get_modify {f : CsEntry → CsEntry} (hf : ∀ e, (f e).data = e.data) (h : r ∈ table.refs) :
    ∃ e ∈ table.entries, e.ref = r ∧ (table.modify r f hf).get r = some (f e) := by
  obtain ⟨e, he, her⟩ := mem_refs.mp h
  refine ⟨e, he, her, (get_eq_some_iff _).mpr ⟨?_, (CsEntry.ref_eq_of_data (hf e)).trans her⟩⟩
  exact List.mem_map.mpr ⟨e, he, if_pos her⟩

theorem eq_of_entries {table' : CsTable} (h : table.entries = table'.entries) : table = table' := by
  cases table
  cases table'
  congr

theorem modify_modify {f g : CsEntry → CsEntry} (hf : ∀ e, (f e).data = e.data) (hg : ∀ e, (g e).data = e.data) :
    (table.modify r f hf).modify r g hg = table.modify r (fun e => g (f e)) fun e => (hg (f e)).trans (hf e) := by
  refine eq_of_entries ?_
  change List.map _ (List.map _ table.entries) = List.map _ table.entries
  rw [List.map_map]
  refine List.map_congr_left fun e _ => ?_
  rw [Function.comp_apply]
  by_cases he : e.ref = r
  · rw [if_pos he, if_pos ((CsEntry.ref_eq_of_data (hf e)).trans he), if_pos he]
  · rw [if_neg he, if_neg he, if_neg he]

theorem modify_eq_self {f : CsEntry → CsEntry} {hf : ∀ e, (f e).data = e.data}
    (h : ∀ e ∈ table.entries, e.ref = r → f e = e) : table.modify r f hf = table := by
  refine eq_of_entries ?_
  rw [modify]
  refine (List.map_congr_left fun e he => ?_).trans (List.map_id _)
  by_cases her : e.ref = r
  · rw [if_pos her, h e he her, id]
  · rw [if_neg her, id]

theorem emplace_of_none (valid : e.Valid) (h : table.get e.ref = none) :
    (table.emplace e valid).2 = true ∧ (table.emplace e valid).1.entries.Perm (e :: table.entries) := by
  rw [emplace, dif_pos h]
  exact ⟨rfl, insertBy_perm _ _ _⟩

theorem emplace_of_some (valid : e.Valid) (h : table.get e.ref ≠ none) : table.emplace e valid = (table, false) := by
  rw [emplace, dif_neg h]

end CsTable

/-! ## The calls -/

/-- What happened: Data was stored, new or again, an entry was used, the timer of an entry fired, and an entry of the
table was evicted. -/
inductive CsEvent where
  | stored (r : EntryRef)
  | used (r : EntryRef)
  | staled (r : EntryRef)
  | evicted (entries : List CsEntry) (r : EntryRef)

structure Store (σ : Type) where
  table : CsTable := CsTable.empty
  limit : ℕ
  shouldAdmit : Bool := true
  shouldServe : Bool := true
  now : ℕ := 0
  policy : σ
  trace : List CsEvent := []

/-- A replacement policy. `fire` is an event of its scheduler. -/
structure Policy (σ : Type) where
  init : σ
  afterInsert : Store σ → EntryRef → Option (Store σ)
  afterRefresh : Store σ → EntryRef → Option (Store σ)
  beforeErase : Store σ → EntryRef → Option (Store σ)
  beforeUse : Store σ → EntryRef → Option (Store σ)
  evictEntries : Store σ → Option (Store σ)
  fire : Store σ → ℕ → Option (Store σ)

abbrev CsData := { data : Data // data.name.Valid ∧ Component.Valid ⟨1, data.digest⟩ }

/-- A call. -/
inductive CsOp where
  | wait (time : ℕ)
  | insert (data : CsData) (isUnsolicited noCache : Bool)
  | find (interest : Interest)
  | erase (prefixName : Name) (limit : ℕ)
  | setLimit (limit : ℕ)
  | enableAdmit (shouldAdmit : Bool)
  | enableServe (shouldServe : Bool)
  | fire (event : ℕ)

namespace Store

variable {σ : Type}

/-- The signal `beforeEvict`. -/
def evict (s : Store σ) (r : EntryRef) : Store σ :=
  { s with table := s.table.erase r, trace := s.trace ++ [.evicted s.table.entries r] }

def size (s : Store σ) : ℕ := s.table.entries.length

def newEntry (now : ℕ) (data : Data) (isUnsolicited : Bool) : CsEntry := ⟨data, isUnsolicited, now + data.freshnessPeriod⟩

def insert (P : Policy σ) (s : Store σ) (data : CsData) (isUnsolicited noCache : Bool) : Option (Store σ) :=
  if ! s.shouldAdmit || s.limit == 0 then some s
  else if noCache then some s
  else
    let r := (newEntry s.now data.1 isUnsolicited).ref
    let emplaced := s.table.emplace (newEntry s.now data.1 isUnsolicited) data.2
    let table := emplaced.1.modify r (CsEntry.updateFreshUntil s.now) fun _ => rfl
    if emplaced.2 then P.afterInsert { s with table := table, trace := s.trace ++ [.stored r] } r
    else
      let table := table.modify r (CsEntry.solicit isUnsolicited) (CsEntry.data_solicit isUnsolicited)
      P.afterRefresh { s with table := table, trace := s.trace ++ [.stored r] } r

/-- `eraseImpl`: the entries of the range, as many as the limit allows. -/
def eraseImpl (P : Policy σ) (s : Store σ) (prefixName : Name) (limit : ℕ) : Option (Store σ) :=
  let (first, last) := s.table.findPrefixRange prefixName
  ((RangeLib.between first last).take limit).foldlM (fun s e =>
    (P.beforeErase s e.ref).map fun s => { s with table := s.table.erase e.ref }) s

def findImpl (P : Policy σ) (s : Store σ) (interest : Interest) : Option (Store σ) :=
  match Cs.findImpl ⟨s.table, s.shouldServe, s.limit⟩ s.now interest with
  | none => some s
  | some e => P.beforeUse { s with trace := s.trace ++ [.used e.ref] } e.ref

def setLimit (P : Policy σ) (s : Store σ) (nMaxEntries : ℕ) : Option (Store σ) :=
  P.evictEntries { s with limit := nMaxEntries }

/-- One call. -/
def step (P : Policy σ) (s : Store σ) : CsOp → Option (Store σ)
  | .wait time => some { s with now := s.now + time }
  | .insert data isUnsolicited noCache => s.insert P data isUnsolicited noCache
  | .find interest => s.findImpl P interest
  | .erase prefixName limit => s.eraseImpl P prefixName limit
  | .setLimit limit => s.setLimit P limit
  | .enableAdmit shouldAdmit => some { s with shouldAdmit := shouldAdmit }
  | .enableServe shouldServe => some { s with shouldServe := shouldServe }
  | .fire event => P.fire s event

def run (P : Policy σ) (nMaxPackets : ℕ) (ops : List CsOp) : Option (Store σ) :=
  ops.foldlM (step P) { limit := nMaxPackets, policy := P.init }

end Store

/-- Each eviction of a trace has a property, given what happened before, the entries of the table and the entry that
goes. -/
def EvictionsBy (Q : List CsEvent → List CsEntry → EntryRef → Prop) (trace : List CsEvent) : Prop :=
  ∀ before entries r after, trace = before ++ .evicted entries r :: after → Q before entries r

theorem EvictionsBy.concat {Q : List CsEvent → List CsEntry → EntryRef → Prop} {trace : List CsEvent} {event : CsEvent}
    (h : EvictionsBy Q trace) (hevent : ∀ entries r, event = .evicted entries r → Q trace entries r) :
    EvictionsBy Q (trace ++ [event]) := by
  intro before entries r after heq
  rcases List.eq_nil_or_concat after with rfl | ⟨after, x, rfl⟩
  · obtain ⟨rfl, hlast⟩ := List.append_inj' heq rfl
    exact hevent entries r (List.singleton_inj.mp hlast)
  · rw [List.concat_eq_append, ← List.cons_append, ← List.append_assoc] at heq
    exact h before entries r after (List.append_inj' heq rfl).1

/-! ## Lawful policies -/

/-- What the calls of a policy keep. The entry of `afterInsert` is new in the table, and that of `afterRefresh` is
changed by `f`. -/
structure Policy.Lawful {σ : Type} (P : Policy σ) (I : Store σ → Prop) : Prop where
  init : ∀ limit, I { limit := limit, policy := P.init }
  frame : ∀ s now shouldAdmit shouldServe, I s → s.now ≤ now →
    I { s with now := now, shouldAdmit := shouldAdmit, shouldServe := shouldServe }
  afterInsert : ∀ s table e, I s → 0 < s.limit → e.ref ∉ s.table.refs → table.entries.Perm (e :: s.table.entries) →
    e.isFresh s.now → ∃ s', P.afterInsert { s with table := table, trace := s.trace ++ [.stored e.ref] } e.ref = some s' ∧
      I s'
  afterRefresh : ∀ s r f hf, I s → r ∈ s.table.refs → (∀ e, (f e).isFresh s.now) →
    ∃ s', P.afterRefresh { s with table := s.table.modify r f hf, trace := s.trace ++ [.stored r] } r = some s' ∧ I s'
  beforeErase : ∀ s r, I s → r ∈ s.table.refs →
    ∃ s', P.beforeErase s r = some s' ∧ s'.table = s.table ∧ I { s' with table := s'.table.erase r }
  beforeUse : ∀ s r, I s → r ∈ s.table.refs →
    ∃ s', P.beforeUse { s with trace := s.trace ++ [.used r] } r = some s' ∧ I s'
  evictEntries : ∀ s limit, I s → ∃ s', P.evictEntries { s with limit := limit } = some s' ∧ I s'
  fire : ∀ s event, I s → ∃ s', P.fire s event = some s' ∧ I s'

namespace Policy.Lawful

variable {σ : Type} {P : Policy σ} {I : Store σ → Prop} {s : Store σ}

variable (h : P.Lawful I)

include h

theorem insert (hs : I s) (data : CsData) (isUnsolicited noCache : Bool) :
    ∃ s', s.insert P data isUnsolicited noCache = some s' ∧ I s' := by
  rw [Store.insert]
  by_cases hadmit : (! s.shouldAdmit || s.limit == 0) = true
  · exact ⟨s, if_pos hadmit, hs⟩
  rw [if_neg hadmit]
  by_cases hcache : noCache = true
  · exact ⟨s, if_pos hcache, hs⟩
  rw [if_neg hcache]
  have hlimit : 0 < s.limit := by
    rw [Bool.or_eq_true, not_or, beq_iff_eq] at hadmit
    omega
  dsimp only
  by_cases hnew : s.table.get (Store.newEntry s.now data.1 isUnsolicited).ref = none
  · obtain ⟨hisNew, hperm⟩ := CsTable.emplace_of_none (e := Store.newEntry s.now data.1 isUnsolicited) data.2 hnew
    have hsame : (s.table.emplace (Store.newEntry s.now data.1 isUnsolicited) data.2).1.modify
        (Store.newEntry s.now data.1 isUnsolicited).ref (CsEntry.updateFreshUntil s.now) (fun _ => rfl) =
        (s.table.emplace (Store.newEntry s.now data.1 isUnsolicited) data.2).1 := by
      refine CsTable.modify_eq_self fun e he her => ?_
      rcases List.mem_cons.mp (hperm.mem_iff.mp he) with rfl | he
      · rfl
      · exact absurd (CsTable.mem_refs.mpr ⟨e, he, her⟩) (CsTable.get_eq_none_iff.mp hnew)
    rw [if_pos hisNew, hsame]
    refine h.afterInsert s _ _ hs hlimit (CsTable.get_eq_none_iff.mp hnew) hperm ?_
    exact decide_eq_true (Nat.le_add_right _ _)
  · have hemplace := CsTable.emplace_of_some (e := Store.newEntry s.now data.1 isUnsolicited) data.2 hnew
    rw [hemplace]
    dsimp only
    rw [if_neg Bool.false_ne_true, CsTable.modify_modify (f := CsEntry.updateFreshUntil s.now) (fun _ => rfl)
      (CsEntry.data_solicit isUnsolicited)]
    have hmem : (Store.newEntry s.now data.1 isUnsolicited).ref ∈ s.table.refs := by
      by_contra hnot
      exact hnew (CsTable.get_eq_none_iff.mpr hnot)
    refine h.afterRefresh s _ _ _ hs hmem fun e => ?_
    rw [CsEntry.solicit]
    split_ifs <;> exact decide_eq_true (Nat.le_add_right _ _)

theorem eraseLoop {l : List CsEntry} (hs : I s) (hl : (l.map CsEntry.ref).Nodup) (hsub : ∀ e ∈ l, e.ref ∈ s.table.refs) :
    ∃ s', l.foldlM (fun s e => (P.beforeErase s e.ref).map fun s => { s with table := s.table.erase e.ref }) s = some s' ∧
      I s' := by
  induction l generalizing s with
  | nil => exact ⟨s, rfl, hs⟩
  | cons e l ih =>
    obtain ⟨s', hs', htable, hI⟩ := h.beforeErase s e.ref hs (hsub e List.mem_cons_self)
    obtain ⟨hnot, hrest⟩ := List.nodup_cons.mp hl
    rw [List.foldlM_cons, hs', Option.map_some]
    refine ih hI hrest fun x hx => ?_
    rw [CsTable.mem_refs_erase, htable]
    exact ⟨hsub x (List.mem_cons_of_mem e hx), fun heq => hnot (heq ▸ List.mem_map_of_mem hx)⟩

theorem eraseImpl (hs : I s) (prefixName : Name) (limit : ℕ) : ∃ s', s.eraseImpl P prefixName limit = some s' ∧ I s' := by
  rw [Store.eraseImpl]
  have hsub : ((RangeLib.between (s.table.findPrefixRange prefixName).1 (s.table.findPrefixRange prefixName).2).take
      limit).Sublist s.table.entries :=
    ((List.take_sublist _ _).trans (RangeLib.between_sublist _ _)).trans RangeLib.lowerBound_sublist
  refine h.eraseLoop hs ((s.table.nodup_refs).sublist (hsub.map _)) fun e he => ?_
  exact CsTable.mem_refs.mpr ⟨e, hsub.subset he, rfl⟩

theorem findImpl (hs : I s) (interest : Interest) : ∃ s', s.findImpl P interest = some s' ∧ I s' := by
  rw [Store.findImpl]
  cases hfind : Cs.findImpl ⟨s.table, s.shouldServe, s.limit⟩ s.now interest with
  | none => exact ⟨s, rfl, hs⟩
  | some e =>
    refine h.beforeUse s e.ref hs (CsTable.mem_refs.mpr ⟨e, ?_, rfl⟩)
    rw [Cs.findImpl] at hfind
    split_ifs at hfind
    have hmem := List.mem_of_find?_eq_some hfind
    exact RangeLib.lowerBound_sublist.subset ((RangeLib.between_sublist _ _).subset hmem)

theorem step (hs : I s) (op : CsOp) : ∃ s', s.step P op = some s' ∧ I s' := by
  cases op with
  | wait time => exact ⟨_, rfl, h.frame s _ s.shouldAdmit s.shouldServe hs (Nat.le_add_right _ _)⟩
  | insert data isUnsolicited noCache => exact h.insert hs data isUnsolicited noCache
  | find interest => exact h.findImpl hs interest
  | erase prefixName limit => exact h.eraseImpl hs prefixName limit
  | setLimit limit => exact h.evictEntries s limit hs
  | enableAdmit shouldAdmit => exact ⟨_, rfl, h.frame s s.now shouldAdmit s.shouldServe hs le_rfl⟩
  | enableServe shouldServe => exact ⟨_, rfl, h.frame s s.now s.shouldAdmit shouldServe hs le_rfl⟩
  | fire event => exact h.fire s event hs

/-- **No assertion fails along a run**, and what the policy keeps holds after it. -/
theorem run (nMaxPackets : ℕ) (ops : List CsOp) : ∃ s, Store.run P nMaxPackets ops = some s ∧ I s := by
  rw [Store.run]
  suffices hfold : ∀ s, I s → ∃ s', ops.foldlM (Store.step P) s = some s' ∧ I s' from hfold _ (h.init nMaxPackets)
  induction ops with
  | nil => exact fun s hs => ⟨s, rfl, hs⟩
  | cons op ops ih =>
    intro s hs
    obtain ⟨s', hs', hI⟩ := h.step hs op
    rw [List.foldlM_cons, hs']
    exact ih s' hI

end Policy.Lawful

end Ns3Ndn
