import Ns3Ndn.Fw.Lawful
import Ns3Ndn.Fw.QLearningScope

/-!
# Expiry of PIT entries

The expiry timer of a PIT entry is set from five places. Between the insertion of an entry and the
first setting of its timer the pipeline has several ways out, none of which can be taken for a new
entry. So every entry in the table waits for one expiry event, and an event that fires finds its entry.

* `Timed`: the invariant, in which some entries may still be without a timer;
* **`reachable_expiring`**: no PIT entry is leaked, and none is finalized twice.
-/

namespace Ns3Ndn.Forwarder

open OrdLib

variable {κ δ σ : Type} {s t u : Forwarder κ δ σ} {X Y : ℕ → Prop}

/-- **No PIT entry is leaked or finalized twice.** -/
structure Expiring (s : Forwarder κ δ σ) : Prop where
  /-- An entry in the table has one pending expiry event. -/
  once : ∀ id, (s.pit.find? id).isSome →
    (s.expiryEvents.filter fun ev => ev.pitEntry = id).length = 1
  /-- A pending expiry event refers to an entry in the table. -/
  only : ∀ ev ∈ s.expiryEvents, (s.pit.find? ev.pitEntry).isSome
  /-- No entry is finalized twice. -/
  finalized : (s.finalized.map Prod.fst).Nodup
  /-- Every entry that was inserted is in the table, or it was finalized. -/
  inserted : ∀ id, id < s.nextPitEntry ↔
    ((s.pit.find? id).isSome ∨ id ∈ s.finalized.map Prod.fst)
  /-- No entry in the table was finalized. -/
  disjoint : ∀ id, (s.pit.find? id).isSome → id ∉ s.finalized.map Prod.fst
  nSatisfied : s.nSatisfiedInterests = s.finalized.countP fun b => b.2
  nUnsatisfied : s.nUnsatisfiedInterests = s.finalized.countP fun b => ! b.2

/-! ## The invariant -/

/-- **Entries and expiry events belong together**, but for entries in `X` without a timer. -/
structure Timed (X : ℕ → Prop) (s : Forwarder κ δ σ) : Prop where
  armed : ∀ {id e}, s.pit.find? id = some e → X id ∧ e.expiryTimer = none ∨
    ∃ ev ∈ s.expiryEvents, ev.pitEntry = id ∧ e.expiryTimer = some ev.id
  pending : ∀ {ev}, ev ∈ s.expiryEvents →
    ∃ e, s.pit.find? ev.pitEntry = some e ∧ e.expiryTimer = some ev.id
  nodup : (s.expiryEvents.map ExpiryEvent.id).Nodup
  nextEvent : ∀ {ev}, ev ∈ s.expiryEvents → ev.id < s.nextEvent
  finalized : (s.finalized.map Prod.fst).Nodup
  inserted : ∀ id, id < s.nextPitEntry ↔
    ((s.pit.find? id).isSome ∨ id ∈ s.finalized.map Prod.fst)
  disjoint : ∀ id, (s.pit.find? id).isSome → id ∉ s.finalized.map Prod.fst
  nSatisfied : s.nSatisfiedInterests = s.finalized.countP fun b => b.2
  nUnsatisfied : s.nUnsatisfiedInterests = s.finalized.countP fun b => ! b.2

theorem Timed.mono (h : Timed X s) (hXY : ∀ id, X id → Y id) : Timed Y s :=
  { h with armed := fun he => (h.armed he).imp_left (And.imp_left (hXY _)) }

theorem Timed.inj (h : Timed X s) {ev ev' : ExpiryEvent} (hev : ev ∈ s.expiryEvents)
    (hev' : ev' ∈ s.expiryEvents) (hid : ev.id = ev'.id) : ev = ev' :=
  List.inj_on_of_nodup_map h.nodup hev hev' hid

theorem Timed.expiring (h : Timed (fun _ => False) s) : s.Expiring := by
  refine ⟨fun id hid => ?_, fun ev hev => ?_, h.finalized, h.inserted, h.disjoint, h.nSatisfied,
    h.nUnsatisfied⟩
  · obtain ⟨e, he⟩ := Option.isSome_iff_exists.mp hid
    obtain ⟨ev, hev, hentry, htimer⟩ := (h.armed he).resolve_left fun hx => hx.1
    -- two events of one entry carry the id that the entry holds
    have hall : ∀ ev' ∈ s.expiryEvents, ev'.pitEntry = id ↔ ev' = ev := by
      intro ev' hev'
      constructor
      · rintro rfl
        obtain ⟨e', he', htimer'⟩ := h.pending hev'
        rw [he, Option.some_inj] at he'
        rw [← he', htimer, Option.some_inj] at htimer'
        exact (h.inj hev hev' htimer').symm
      · rintro rfl
        exact hentry
    have hfilter : (s.expiryEvents.filter fun ev' => ev'.pitEntry = id) =
        s.expiryEvents.filter fun ev' => ev' = ev :=
      List.filter_congr fun ev' hev' => by simp [hall ev' hev']
    have hcount := List.count_eq_one_of_mem (List.Nodup.of_map _ h.nodup) hev
    rw [hfilter, ← hcount, List.count, List.countP_eq_length_filter]
    rfl
  · obtain ⟨e, he, -⟩ := h.pending hev
    rw [he]
    rfl

/-! ## Edits -/

theorem Timed.sameTables (h : Timed X s) (hsame : s.SameTables t) : Timed X t where
  armed he := by
    rw [hsame.pit] at he
    rw [hsame.expiryEvents]
    exact h.armed he
  pending hev := by
    rw [hsame.expiryEvents] at hev
    rw [hsame.pit]
    exact h.pending hev
  nodup := hsame.expiryEvents ▸ h.nodup
  nextEvent hev := by
    rw [hsame.nextEvent]
    exact h.nextEvent (hsame.expiryEvents ▸ hev)
  finalized := hsame.finalized ▸ h.finalized
  inserted id := by
    rw [hsame.nextPitEntry, hsame.pit, hsame.finalized]
    exact h.inserted id
  disjoint id := by
    rw [hsame.pit, hsame.finalized]
    exact h.disjoint id
  nSatisfied := by rw [hsame.nSatisfiedInterests, hsame.finalized, h.nSatisfied]
  nUnsatisfied := by rw [hsame.nUnsatisfiedInterests, hsame.finalized, h.nUnsatisfied]

theorem Timed.modifyEntry (h : Timed X s) (id : ℕ) {f : PitEntry → PitEntry}
    (hf : ∀ e : PitEntry, e.Keeps (f e)) : Timed X (s.modifyEntry id f) := by
  have hfind : ∀ id', (s.modifyEntry id f).pit.find? id' =
      if id = id' then (s.pit.find? id').map f else s.pit.find? id' := fun id' =>
    s.pit.find?_modify id id' f
  refine { h with armed := fun {id' e'} he' => ?_, pending := fun {ev} hev => ?_, inserted := ?_,
                  disjoint := ?_ }
  · rw [hfind] at he'
    split_ifs at he' with hid
    · obtain ⟨e, he, rfl⟩ := Option.map_eq_some_iff.mp he'
      rw [(hf e).expiryTimer]
      exact h.armed he
    · exact h.armed he'
  · obtain ⟨e, he, htimer⟩ := h.pending hev
    rw [hfind]
    split_ifs with hid
    · exact ⟨f e, by rw [he]; rfl, by rw [(hf e).expiryTimer, htimer]⟩
    · exact ⟨e, he, htimer⟩
  · intro id'
    rw [modifyEntry_isSome]
    exact h.inserted id'
  · intro id'
    rw [modifyEntry_isSome]
    exact h.disjoint id'

/-- **Setting the timer of an entry** replaces its event, and leaves it with a timer. -/
theorem Timed.setExpiryTimer (h : Timed X s) {id : ℕ} (hid : (s.pit.find? id).isSome)
    (duration : ℕ) : Timed (fun id' => X id' ∧ id' ≠ id) (s.setExpiryTimer id duration) := by
  obtain ⟨e, he⟩ := Option.isSome_iff_exists.mp hid
  have hfind : ∀ id', (s.setExpiryTimer id duration).pit.find? id' =
      if id = id' then (s.pit.find? id').map fun e => { e with expiryTimer := some s.nextEvent }
      else s.pit.find? id' := fun id' => s.pit.find?_modify id id' _
  -- an event is cancelled just if it is one of the entry
  have hcancel : ∀ ev, ev ∈ s.cancelExpiry id ↔ ev ∈ s.expiryEvents ∧ ev.pitEntry ≠ id := by
    intro ev
    rw [cancelExpiry, List.mem_filter, he, Option.bind_some]
    refine and_congr_right fun hev => ?_
    rw [decide_eq_true_iff, not_iff_not]
    obtain ⟨e', he', htimer'⟩ := h.pending hev
    constructor
    · intro htimer
      obtain ⟨ev', hev', hentry', hev'id⟩ := (h.armed he).resolve_left fun hx => by simp [hx.2] at htimer
      rw [htimer, Option.some_inj] at hev'id
      rw [h.inj hev hev' hev'id]
      exact hentry'
    · rintro rfl
      rw [he, Option.some_inj] at he'
      rw [he', htimer']
  have hmem : ∀ ev, ev ∈ (s.setExpiryTimer id duration).expiryEvents ↔
      (ev ∈ s.expiryEvents ∧ ev.pitEntry ≠ id) ∨ ev = ⟨s.nextEvent, id, s.now + duration * ms⟩ := by
    intro ev
    change ev ∈ s.cancelExpiry id ++ [_] ↔ _
    rw [List.mem_append, hcancel, List.mem_singleton]
  refine { h with armed := fun {id' e'} he' => ?_, pending := fun {ev} hev => ?_, nodup := ?_,
                  nextEvent := fun {ev} hev => ?_, inserted := ?_, disjoint := ?_ }
  · rw [hfind] at he'
    by_cases hid' : id = id'
    · subst hid'
      rw [if_pos rfl, he] at he'
      refine Or.inr ⟨_, (hmem _).mpr (Or.inr rfl), rfl, ?_⟩
      rw [← Option.some.inj he']
    · rw [if_neg hid'] at he'
      refine (h.armed he').imp (fun hx => ⟨⟨hx.1, Ne.symm hid'⟩, hx.2⟩) ?_
      rintro ⟨ev, hev, rfl, htimer⟩
      exact ⟨ev, (hmem ev).mpr (Or.inl ⟨hev, Ne.symm hid'⟩), rfl, htimer⟩
  · rw [hfind]
    rcases (hmem ev).mp hev with ⟨hev, hne⟩ | rfl
    · rw [if_neg (Ne.symm hne)]
      exact h.pending hev
    · rw [if_pos rfl, he]
      exact ⟨_, rfl, rfl⟩
  · change ((s.cancelExpiry id ++ [_]).map ExpiryEvent.id).Nodup
    rw [List.map_append]
    refine (h.nodup.sublist (List.filter_sublist.map _)).append (List.nodup_singleton _) ?_
    refine List.disjoint_singleton.mpr fun hmem' => ?_
    obtain ⟨ev, hev, hid'⟩ := List.mem_map.mp hmem'
    exact absurd (h.nextEvent ((hcancel ev).mp hev).1) (hid' ▸ lt_irrefl _)
  · change ev.id < s.nextEvent + 1
    rcases (hmem ev).mp hev with ⟨hev, -⟩ | rfl
    · exact Nat.lt_succ_of_lt (h.nextEvent hev)
    · exact Nat.lt_succ_self _
  · intro id'
    rw [setExpiryTimer_isSome]
    exact h.inserted id'
  · intro id'
    rw [setExpiryTimer_isSome]
    exact h.disjoint id'

theorem Timed.acts (h : Timed X s) (hacts : s.Acts t) : Timed X t := by
  induction hacts with
  | refl => exact h
  | other _ hsame ih => exact ih.sameTables hsame
  | edit id _ hf ih => exact ih.modifyEntry id hf
  | timer duration _ hid ih => exact (ih.setExpiryTimer hid duration).mono fun _ hx => hx.1
  | send packet _ ih => exact { ih with }

/-! ## Turns -/

theorem Timed.arms (h : Timed X s) {id : ℕ} (hid : (s.pit.find? id).isSome) (harms : s.Arms id t) :
    Timed (fun id' => X id' ∧ id' ≠ id) t := by
  obtain ⟨f, duration, hf, hacts⟩ := harms
  refine ((h.modifyEntry id hf).setExpiryTimer ?_ duration).acts hacts
  rw [modifyEntry_isSome]
  exact hid

/-- A new entry is the only one without a timer. -/
theorem Timed.insertPitEntry (h : Timed (fun _ => False) s) (interest : Interest) :
    Timed (fun id => id = s.nextPitEntry) (s.insertPitEntry interest) := by
  have hfind : ∀ id, (s.insertPitEntry interest).pit.find? id =
      if s.nextPitEntry = id then some { interest } else s.pit.find? id := fun id =>
    s.pit.find?_insert s.nextPitEntry id _
  have hfresh : ∀ id, (s.pit.find? id).isSome → s.nextPitEntry ≠ id := by
    rintro id hid rfl
    exact lt_irrefl _ ((h.inserted _).mpr (Or.inl hid))
  refine { h with armed := fun {id e} he => ?_, pending := fun {ev} hev => ?_, inserted := ?_,
                  disjoint := ?_ }
  · rw [hfind] at he
    split_ifs at he with hid
    · exact Or.inl ⟨hid.symm, by rw [← Option.some.inj he]⟩
    · exact (h.armed he).imp_left fun hx => hx.1.elim
  · obtain ⟨e, he, htimer⟩ := h.pending hev
    refine ⟨e, ?_, htimer⟩
    rw [hfind, if_neg (hfresh _ (by rw [he]; rfl)), he]
  · intro id
    change id < s.nextPitEntry + 1 ↔ _
    rw [Nat.lt_succ_iff_lt_or_eq, h.inserted, hfind]
    by_cases hid : s.nextPitEntry = id
    · simp [hid]
    · rw [if_neg hid]
      simp [Ne.symm hid]
      rfl
  · intro id hid
    rw [hfind] at hid
    by_cases hnew : s.nextPitEntry = id
    · intro hmem
      exact lt_irrefl _ (hnew ▸ (h.inserted id).mpr (Or.inr hmem))
    · rw [if_neg hnew] at hid
      exact h.disjoint id hid

/-- **An event that fires finds its entry**, and takes it out of the table. -/
theorem Timed.finalize (h : Timed (fun _ => False) s) (E : Env κ δ) {event : ExpiryEvent}
    (hevent : event ∈ s.expiryEvents) :
    Timed (fun _ => False)
      ({ s with expiryEvents := s.expiryEvents.filter fun ev => ev.id ≠ event.id
        }.onInterestFinalize E event.pitEntry) := by
  obtain ⟨e, he, htimer⟩ := h.pending hevent
  unfold onInterestFinalize
  rw [he]
  generalize hu : ({ s with expiryEvents := s.expiryEvents.filter fun ev => ev.id ≠ event.id } :
    Forwarder κ δ σ) = u
  have hsame := insertDeadNonceList_same E u e none
  have hmem : ∀ ev, ev ∈ u.cancelExpiry event.pitEntry ↔ ev ∈ s.expiryEvents ∧ ev.id ≠ event.id := by
    intro ev
    rw [← hu, cancelExpiry]
    simp only [List.mem_filter, he, Option.bind_some, htimer, ne_eq, decide_not, Option.some_inj,
      Bool.not_eq_true', decide_eq_false_iff_not, and_assoc, eq_comm (a := event.id), and_self]
  have hfind : ∀ id, (s.pit.erase event.pitEntry).find? id =
      if event.pitEntry = id then none else s.pit.find? id := fun id => s.pit.find?_erase _ id
  -- the events that stay belong to other entries
  have hother : ∀ ev ∈ s.expiryEvents, ev.id ≠ event.id ↔ event.pitEntry ≠ ev.pitEntry := by
    intro ev hev
    obtain ⟨e', he', htimer'⟩ := h.pending hev
    rw [not_iff_not]
    constructor
    · intro hid
      rw [h.inj hev hevent hid]
    · intro hentry
      rw [← hentry, he, Option.some_inj] at he'
      rw [← he', htimer, Option.some_inj] at htimer'
      exact htimer'.symm
  have hpit : u.pit = s.pit := by rw [← hu]
  have hfin : u.finalized = s.finalized := by rw [← hu]
  refine ⟨fun {id e'} he' => Or.inr ?_, fun {ev} hev => ?_, ?_, fun {ev} hev => ?_, ?_, fun id => ?_,
    fun id hid => ?_, ?_, ?_⟩
  · dsimp only at he' ⊢
    rw [hpit, hfind] at he'
    split_ifs at he' with hid
    obtain ⟨ev, hev, rfl, htimer'⟩ := (h.armed he').resolve_left fun hx => hx.1
    exact ⟨ev, (hmem ev).mpr ⟨hev, (hother ev hev).mpr hid⟩, rfl, htimer'⟩
  · obtain ⟨hev, hne⟩ := (hmem ev).mp hev
    dsimp only
    rw [hpit, hfind, if_neg ((hother ev hev).mp hne)]
    exact h.pending hev
  · have hsub : (u.cancelExpiry event.pitEntry).Sublist s.expiryEvents := by
      rw [← hu]
      exact List.filter_sublist.trans List.filter_sublist
    exact h.nodup.sublist (hsub.map _)
  · dsimp only
    rw [hsame.nextEvent, ← hu]
    exact h.nextEvent ((hmem ev).mp hev).1
  · dsimp only
    rw [hfin, List.map_append]
    refine h.finalized.append (List.nodup_singleton _) (List.disjoint_singleton.mpr ?_)
    exact h.disjoint _ (by rw [he]; rfl)
  · dsimp only
    rw [hsame.nextPitEntry, hpit, hfind, hfin, ← hu, List.map_append, List.mem_append]
    dsimp only
    rw [h.inserted id]
    by_cases hid : event.pitEntry = id
    · subst hid
      simp [he]
    · rw [if_neg hid]
      simp [Ne.symm hid]
  · dsimp only at hid ⊢
    rw [hpit, hfind] at hid
    split_ifs at hid with hne
    · cases hid
    · rw [hfin, List.map_append, List.mem_append]
      rintro (hmem' | hmem')
      · exact h.disjoint id hid hmem'
      · exact hne (List.mem_singleton.mp hmem').symm
  · dsimp only
    rw [hfin, List.countP_append, ← h.nSatisfied, ← hu]
    cases e.isSatisfied <;> rfl
  · dsimp only
    rw [hfin, List.countP_append, ← h.nUnsatisfied, ← hu]
    cases e.isSatisfied <;> rfl

theorem Timed.turn (h : Timed (fun _ => False) s) (hturn : s.Turn t) : Timed (fun _ => False) t := by
  cases hturn with
  | acts hacts => exact h.acts hacts
  | @insert interest u _ _ hsame harms =>
    have hid : (u.pit.find? s.nextPitEntry).isSome := by
      rw [hsame.pit, Forwarder.insertPitEntry, OrdMap.find?_insert_self]
      rfl
    refine (((h.insertPitEntry interest).sameTables hsame).arms hid harms).mono fun id hx => ?_
    exact hx.2 hx.1
  | finalize E hevent => exact h.finalize E hevent
  | elapse duration => exact { h with }
  | faces faces lastFaceId hacts => exact { h.acts hacts with }

theorem timed_init (h : s.Initial) : Timed (fun _ => False) s := by
  refine ⟨?_, ?_, ?_, ?_, ?_, ?_, ?_, ?_, ?_⟩ <;> simp [h.pit, h.expiryEvents, h.nextPitEntry,
    h.finalized, h.nSatisfiedInterests, h.nUnsatisfiedInterests]

/-- **In every state that a forwarder reaches, each PIT entry waits for one expiry event, each event
belongs to an entry, and each entry that is gone was counted once.** -/
theorem reachable_expiring {E : Env κ δ} {S : Strategy κ δ σ} (hS : Lawful S) (h : Reachable E S s) :
    s.Expiring :=
  (h.inv hS (I := Timed fun _ => False) (fun _ => timed_init) fun _ _ hturn hs => hs.turn hturn).expiring

def satisfiedAndExpired : List FwEvent :=
  [.addFace linkFace, .addFace linkFace, .addNextHop [] 257 1, .interest 256 (bareInterest nameA 1),
    .data 257 0 { name := nameA }, .expire 1, .interest 256 (bareInterest nameA 2), .elapse (4000 * ms),
    .expire 2]

theorem expiring_satisfiedAndExpired :
    (bareForwarder.run bareEnv qLearningStrategy satisfiedAndExpired).finalized =
        [(0, true), (1, false)] ∧
      (bareForwarder.run bareEnv qLearningStrategy satisfiedAndExpired).Expiring := by
  refine ⟨by decide, reachable_expiring qLearningStrategy_lawful (E := bareEnv) ?_⟩
  exact reachable_run (.init ⟨rfl, rfl, rfl, rfl, rfl, rfl, rfl⟩) _

end Ns3Ndn.Forwarder
