import Ns3Ndn.Table.Match

/-!
# Changes of strategy

`StrategyChoice::insert` and `erase` of `NFD/daemon/table/strategy-choice.cpp` clear the StrategyInfo that the
old strategy has placed. They go through the subtree of the prefix, without the subtrees of other choices, and
clear what is attached to the nodes there. The strategy of a PIT entry is that of its name, however, and an entry
for a name with an implicit digest is attached above its name.

* **`strategyChange_right_iff`**: all entries come out right just if those that are `Misplaced` have no
  StrategyInfo.
-/

namespace Ns3Ndn.Tables

open OrdLib LpmLib NameTree

variable {t t' : Tables} {registry : StrategyRegistry} {prefixName : Name}

/-! ## Entries that come out right -/

def Cleared (e : NtPitEntry) : Prop :=
  e.info = [] ∧ (∀ r ∈ e.inRecords, r.info = []) ∧ ∀ r ∈ e.outRecords, r.info = []

instance (e : NtPitEntry) : Decidable (Cleared e) := inferInstanceAs (Decidable (_ ∧ _ ∧ _))

def typeOf (registry : StrategyRegistry) (strategy : Option Name) : Option (Option Name) :=
  strategy.map registry.find

/-- A PIT entry comes out right of a change: its StrategyInfo is cleared if the type of its strategy has
changed, and it is untouched if its strategy has not. -/
def PitRight (registry : StrategyRegistry) (t t' : Tables) (nte : Name) (e : NtPitEntry) : Prop :=
  ∃ e' ∈ (t'.tablesAt nte).pitEntries, e'.id = e.id ∧
    (typeOf registry (t.findEffectiveStrategyPit e) ≠ typeOf registry (t'.findEffectiveStrategyPit e') →
      Cleared e') ∧
    (t.findEffectiveStrategyPit e = t'.findEffectiveStrategyPit e' → e' = e)

def MeasurementsRight (registry : StrategyRegistry) (t t' : Tables) (nte : Name) (info : StrategyInfo) : Prop :=
  ∃ info', (t'.tablesAt nte).measurementsEntry = some info' ∧
    (typeOf registry (t.findEffectiveStrategyMeasurements nte) ≠
        typeOf registry (t'.findEffectiveStrategyMeasurements nte) → info' = []) ∧
    (t.findEffectiveStrategyMeasurements nte = t'.findEffectiveStrategyMeasurements nte → info' = info)

def AllRight (registry : StrategyRegistry) (t t' : Tables) : Prop :=
  (∀ nte, ∀ e ∈ (t.tablesAt nte).pitEntries, PitRight registry t t' nte e) ∧
    ∀ nte info, (t.tablesAt nte).measurementsEntry = some info → MeasurementsRight registry t t' nte info

/-- The PIT entry is for a name with a digest, and a change at the prefix changes its strategy but does not come
to its node, or comes to its node but does not change its strategy: the choice for the entry is at its name. -/
def Misplaced (t : Tables) (prefixName : Name) (e : NtPitEntry) : Prop :=
  EndsWithDigest e.interest.name ∧
    (prefixName = e.interest.name ∨
      (t.strategyAt e.interest.name).isSome ∧ Below t.strategyAt prefixName e.nameTreeEntry)

/-! ## Clearing -/

theorem cleared_clearPitEntry (e : NtPitEntry) : Cleared (clearPitEntry e) := by
  refine ⟨rfl, fun r hr => ?_, fun r hr => ?_⟩
  all_goals
    obtain ⟨r, -, rfl⟩ := List.mem_map.mp hr
    rfl

theorem clearPitEntry_eq_self_iff {e : NtPitEntry} : clearPitEntry e = e ↔ Cleared e := by
  refine ⟨fun h => h ▸ cleared_clearPitEntry e, fun ⟨hinfo, hin, hout⟩ => ?_⟩
  have hrecords : ∀ l : List NtRecord, (∀ r ∈ l, r.info = []) → l.map (fun r => { r with info := [] }) = l := by
    intro l hl
    refine (List.map_congr_left fun r hr => ?_).trans (List.map_id l)
    rw [← hl r hr]
    rfl
  rw [clearPitEntry, hrecords _ hin, hrecords _ hout, ← hinfo]

theorem clearStrategyInfo_clearStrategyInfo (te : TableEntries) :
    clearStrategyInfo (clearStrategyInfo te) = clearStrategyInfo te := by
  have hpit : ∀ e, clearPitEntry (clearPitEntry e) = clearPitEntry e := fun e =>
    clearPitEntry_eq_self_iff.mpr (cleared_clearPitEntry e)
  unfold clearStrategyInfo
  simp only [List.map_map, Option.map_map, TableEntries.mk.injEq, true_and, and_true]
  exact ⟨List.map_congr_left fun e _ => hpit e, rfl⟩

theorem tablesAt_edit_clear (t : Tables) (name m : Name) :
    (t.edit name clearStrategyInfo).tablesAt m =
      if name = m then clearStrategyInfo (t.tablesAt m) else t.tablesAt m := by
  rw [tablesAt_edit_eq]
  by_cases hm : name = m
  · subst hm
    by_cases hname : (t.nameTree.find? name).isSome
    · rw [if_pos ⟨rfl, hname⟩, if_pos rfl]
    · rw [if_neg fun h => hname h.2, if_pos rfl, tablesAt, NameTree.tablesAt,
        Option.not_isSome_iff_eq_none.mp hname]
      rfl
  · rw [if_neg fun h => hm h.1, if_neg hm]

theorem tablesAt_clear_foldl (ntes : List Name) (t : Tables) (m : Name) :
    (ntes.foldl (fun t nte => t.edit nte clearStrategyInfo) t).tablesAt m =
      if m ∈ ntes then clearStrategyInfo (t.tablesAt m) else t.tablesAt m := by
  induction ntes generalizing t with
  | nil => rfl
  | cons nte ntes ih =>
    rw [List.foldl_cons, ih, tablesAt_edit_clear]
    by_cases hm : nte = m
    · have hmem : m ∈ nte :: ntes := List.mem_cons.mpr (Or.inl hm.symm)
      rw [if_pos hm, if_pos hmem, clearStrategyInfo_clearStrategyInfo, ite_self]
    · rw [if_neg hm]
      simp only [List.mem_cons, Ne.symm hm, false_or]

theorem isSome_clear_foldl (ntes : List Name) (t : Tables) (m : Name) :
    ((ntes.foldl (fun t nte => t.edit nte clearStrategyInfo) t).nameTree.find? m).isSome =
      (t.nameTree.find? m).isSome := by
  induction ntes generalizing t with
  | nil => rfl
  | cons nte ntes ih =>
    rw [List.foldl_cons, ih]
    exact t.isSome_edit nte clearStrategyInfo m

/-! ## What the operations do -/

noncomputable def cleanAt (t : Tables) (differ : Prop) (prefixName name : Name) : TableEntries :=
  open Classical in
  if differ ∧ Below t.strategyAt prefixName name then clearStrategyInfo (t.tablesAt name) else t.tablesAt name

theorem Valid.mem_changed_iff (h : t.Valid) (hpre : (t.nameTree.find? prefixName).isSome) {nte : Name}
    (hnte : (t.nameTree.find? nte).isSome) :
    nte ∈ t.nameTree.preorder (t.nameTree.want (changesStrategy prefixName)) prefixName ↔
      Below t.strategyAt prefixName nte := by
  have hwant : ∀ m, (t.nameTree.find? m).isSome → t.nameTree.want (changesStrategy prefixName) m =
      if m = prefixName ∨ t.strategyAt m = none then (true, true) else (false, false) := by
    intro m hm
    obtain ⟨e, he⟩ := Option.isSome_iff_exists.mp hm
    rw [want_eq he, changesStrategy, strategyAt, tablesAt, tablesAt_of_find? he]
    by_cases heq : m = prefixName
    · simp [heq]
    · cases hchoice : e.strategyChoiceEntry <;> simp [heq]
  refine h.mem_preorder_iff_below hpre hnte (fun _ => ?_) fun m _ hm => ?_
  · rw [hwant nte hnte]
    split_ifs with hcase
    · simp [hcase]
    · simp [hcase]
  · rw [hwant m hm]
    split_ifs with hcase
    · simp [hcase]
    · simp [hcase]

/-- **What `changeStrategy` clears.** -/
theorem Valid.changeStrategy_spec (h : t.Valid) (registry : StrategyRegistry)
    (hpre : (t.nameTree.find? prefixName).isSome)
    (oldStrategy newStrategy : Name) :
    ∃ t', t.changeStrategy registry prefixName oldStrategy newStrategy = some t' ∧
      (∀ m, (t'.nameTree.find? m).isSome = (t.nameTree.find? m).isSome) ∧
      ∀ m, t'.tablesAt m =
        t.cleanAt (registry.find oldStrategy ≠ registry.find newStrategy) prefixName m := by
  unfold changeStrategy StrategyRegistry.areSameType cleanAt
  by_cases hsame : registry.find oldStrategy = registry.find newStrategy
  · rw [if_pos (by simpa using hsame)]
    exact ⟨t, rfl, fun _ => rfl, fun m => by rw [if_neg fun h => h.1 hsame]⟩
  · rw [if_neg (by simpa using hsame), h.partialEnumerate_eq _ hpre]
    refine ⟨_, rfl, isSome_clear_foldl _ t, fun m => ?_⟩
    rw [tablesAt_clear_foldl]
    by_cases hm : (t.nameTree.find? m).isSome
    · by_cases hbelow : Below t.strategyAt prefixName m
      · rw [if_pos ((h.mem_changed_iff hpre hm).mpr hbelow), if_pos ⟨hsame, hbelow⟩]
      · rw [if_neg fun hmem => hbelow ((h.mem_changed_iff hpre hm).mp hmem), if_neg fun h => hbelow h.2]
    · -- there is nothing to clear where there is no node
      have hempty : clearStrategyInfo (t.tablesAt m) = t.tablesAt m := by
        rw [tablesAt, NameTree.tablesAt, Option.not_isSome_iff_eq_none.mp hm]
        rfl
      rw [hempty, ite_self, ite_self]

/-- **What `insert` and `erase` do**: the choice at the prefix is replaced, and with it the effective strategy
there. -/
structure StrategyChanged (registry : StrategyRegistry) (t t' : Tables) (prefixName : Name)
    (strategy : Option Name) (oldStrategy newStrategy : Name) : Prop where
  tables : ∀ m, t'.tablesAt m =
    if prefixName = m then
      { t.cleanAt (registry.find oldStrategy ≠ registry.find newStrategy) prefixName m with
        strategyChoiceEntry := strategy }
    else t.cleanAt (registry.find oldStrategy ≠ registry.find newStrategy) prefixName m
  before : t.findEffectiveStrategy prefixName = some oldStrategy
  after : t'.findEffectiveStrategy prefixName = some newStrategy
  depth : prefixName.length ≤ maxDepth

section Changed

variable {strategy : Option Name} {oldStrategy newStrategy : Name}

theorem strategyAt_cleanAt (differ : Prop) (m : Name) :
    (t.cleanAt differ prefixName m).strategyChoiceEntry = t.strategyAt m := by
  unfold cleanAt
  split_ifs
  · rfl
  · rfl

theorem strategyAt_eq_update {differ : Prop} (h : ∀ m, t'.tablesAt m =
      if prefixName = m then { t.cleanAt differ prefixName m with strategyChoiceEntry := strategy }
      else t.cleanAt differ prefixName m) :
    t'.strategyAt = Function.update t.strategyAt prefixName strategy := by
  funext m
  rw [strategyAt, h]
  by_cases hm : prefixName = m
  · subst hm
    rw [if_pos rfl, Function.update_self]
  · rw [if_neg hm, Function.update_of_ne (Ne.symm hm)]
    exact strategyAt_cleanAt differ m

/-- **Whose strategy changes**: the names with no choice between them and the prefix. -/
theorem StrategyChanged.findEffectiveStrategy
    (h : StrategyChanged registry t t' prefixName strategy oldStrategy newStrategy) (name : Name) :
    (Below t.strategyAt prefixName (matchName name) → t.findEffectiveStrategy name = some oldStrategy ∧
        t'.findEffectiveStrategy name = some newStrategy) ∧
      (¬ Below t.strategyAt prefixName (matchName name) →
        t'.findEffectiveStrategy name = t.findEffectiveStrategy name) := by
  have hbelow : Below t'.strategyAt prefixName (matchName name) ↔
      Below t.strategyAt prefixName (matchName name) := by
    rw [strategyAt_eq_update h.tables, below_update]
  have hmin := min_eq_left h.depth
  refine ⟨fun hb => ⟨?_, ?_⟩, fun hb => ?_⟩
  · rw [← h.before, findEffectiveStrategy_eq, findEffectiveStrategy_eq, hmin,
      lpm_of_below (min_le_left _ _) hb]
  · rw [← h.after, findEffectiveStrategy_eq, findEffectiveStrategy_eq, hmin,
      lpm_of_below (min_le_left _ _) (hbelow.mpr hb)]
  · rw [findEffectiveStrategy_eq, findEffectiveStrategy_eq, strategyAt_eq_update h.tables,
      lpm_update_of_not_below (min_le_left _ _) hb]

variable {nte : Name}

theorem Valid.pitRight_iff (h : t.Valid) (h' : t'.Valid) {e e' : NtPitEntry}
    (he : e ∈ (t.tablesAt nte).pitEntries) (he' : e' ∈ (t'.tablesAt nte).pitEntries) (hid : e'.id = e.id)
    (hinterest : e'.interest = e.interest) :
    PitRight registry t t' nte e ↔
      (typeOf registry (t.findEffectiveStrategy e.interest.name) ≠
          typeOf registry (t'.findEffectiveStrategy e.interest.name) → Cleared e') ∧
      (t.findEffectiveStrategy e.interest.name = t'.findEffectiveStrategy e.interest.name → e' = e) := by
  rw [← h.findEffectiveStrategyPit_eq he, ← hinterest, ← h'.findEffectiveStrategyPit_eq he']
  refine ⟨fun ⟨e'', he'', hid', hright⟩ => ?_, fun hright => ⟨e', he', hid, hright⟩⟩
  obtain rfl : e'' = e' := List.inj_on_of_nodup_map (h'.entries nte).ids he'' he' (hid'.trans hid.symm)
  exact hright

theorem StrategyChanged.mem_pitEntries
    (h : StrategyChanged registry t t' prefixName strategy oldStrategy newStrategy) {e : NtPitEntry}
    (he : e ∈ (t.tablesAt nte).pitEntries) :
    (registry.find oldStrategy ≠ registry.find newStrategy → Below t.strategyAt prefixName nte →
        clearPitEntry e ∈ (t'.tablesAt nte).pitEntries) ∧
      (¬ (registry.find oldStrategy ≠ registry.find newStrategy ∧ Below t.strategyAt prefixName nte) →
        e ∈ (t'.tablesAt nte).pitEntries) := by
  have hentries : (t'.tablesAt nte).pitEntries =
      (t.cleanAt (registry.find oldStrategy ≠ registry.find newStrategy) prefixName nte).pitEntries := by
    rw [h.tables]
    split_ifs
    · rfl
    · rfl
  rw [hentries, cleanAt]
  refine ⟨fun hdiffer hbelow => ?_, fun hkept => ?_⟩
  · rw [if_pos ⟨hdiffer, hbelow⟩]
    exact List.mem_map_of_mem he
  · rw [if_neg hkept]
    exact he

/-- **Which PIT entries come out right**: all but those that are misplaced and have StrategyInfo, if the types
differ. -/
theorem StrategyChanged.pitRight_iff
    (h : StrategyChanged registry t t' prefixName strategy oldStrategy newStrategy) (hvalid : t.Valid)
    (hvalid' : t'.Valid) {e : NtPitEntry} (he : e ∈ (t.tablesAt nte).pitEntries) :
    PitRight registry t t' nte e ↔
      (registry.find oldStrategy ≠ registry.find newStrategy → Misplaced t prefixName e → Cleared e) := by
  obtain ⟨hnte, hnode, -⟩ := (hvalid.entries nte).attached e he
  obtain ⟨hclear, hkeep⟩ := h.mem_pitEntries he
  obtain ⟨haffected, hunaffected⟩ := h.findEffectiveStrategy e.interest.name
  have hmisplaced : Misplaced t prefixName e ↔
      ¬ (Below t.strategyAt prefixName nte ↔ Below t.strategyAt prefixName (matchName e.interest.name)) := by
    rw [Misplaced, hnte, ← hnode]
    exact (below_match_ne_iff ..).symm
  by_cases hdiffer : registry.find oldStrategy = registry.find newStrategy
  · have hmem := hkeep fun hcase => hcase.1 hdiffer
    rw [hvalid.pitRight_iff hvalid' he hmem rfl rfl]
    refine iff_of_true ⟨fun htype => absurd ?_ htype, fun _ => rfl⟩ fun hne => absurd hdiffer hne
    by_cases hbelow : Below t.strategyAt prefixName (matchName e.interest.name)
    · rw [(haffected hbelow).1, (haffected hbelow).2, typeOf, typeOf, Option.map_some, Option.map_some, hdiffer]
    · rw [hunaffected hbelow]
  · have htypes : typeOf registry (some oldStrategy) ≠ typeOf registry (some newStrategy) := fun heq =>
      hdiffer (Option.some.inj heq)
    have hnames : some oldStrategy ≠ some newStrategy := fun heq =>
      hdiffer (congrArg registry.find (Option.some.inj heq))
    rw [hmisplaced]
    by_cases hvisited : Below t.strategyAt prefixName nte
    · have hmem := hclear hdiffer hvisited
      rw [hvalid.pitRight_iff hvalid' he hmem rfl rfl, clearPitEntry_eq_self_iff]
      by_cases hbelow : Below t.strategyAt prefixName (matchName e.interest.name)
      · rw [(haffected hbelow).1, (haffected hbelow).2]
        simp [hvisited, hbelow, hnames, cleared_clearPitEntry]
      · rw [hunaffected hbelow]
        simp [hvisited, hbelow, hdiffer]
    · have hmem := hkeep fun hcase => hvisited hcase.2
      rw [hvalid.pitRight_iff hvalid' he hmem rfl rfl]
      by_cases hbelow : Below t.strategyAt prefixName (matchName e.interest.name)
      · rw [(haffected hbelow).1, (haffected hbelow).2]
        simp [hvisited, hbelow, hdiffer, htypes]
      · rw [hunaffected hbelow]
        simp [hvisited, hbelow]

theorem matchName_of_length_le {name : Name} (h : name.length ≤ maxDepth) : matchName name = name :=
  List.take_of_length_le (le_min le_rfl h)

theorem isSome_of_measurementsEntry {info : StrategyInfo}
    (h : (t.tablesAt nte).measurementsEntry = some info) : (t.nameTree.find? nte).isSome := by
  refine isSome_of_tablesAt fun hempty => ?_
  rw [tablesAt, hempty] at h
  cases h

/-- **Every measurements entry comes out right.** -/
theorem StrategyChanged.measurementsRight
    (h : StrategyChanged registry t t' prefixName strategy oldStrategy newStrategy) (hvalid : t.Valid)
    (hvalid' : t'.Valid) {info : StrategyInfo}
    (hinfo : (t.tablesAt nte).measurementsEntry = some info) : MeasurementsRight registry t t' nte info := by
  have hentry : (t'.tablesAt nte).measurementsEntry =
      (t.cleanAt (registry.find oldStrategy ≠ registry.find newStrategy) prefixName nte).measurementsEntry := by
    rw [h.tables]
    split_ifs
    · rfl
    · rfl
  obtain ⟨info', hinfo'⟩ : ∃ info', (t'.tablesAt nte).measurementsEntry = some info' := by
    rw [hentry, cleanAt]
    split_ifs
    · exact ⟨[], by rw [clearStrategyInfo, hinfo]; rfl⟩
    · exact ⟨info, hinfo⟩
  have hsome := isSome_of_measurementsEntry hinfo
  obtain ⟨haffected, hunaffected⟩ := h.findEffectiveStrategy nte
  rw [matchName_of_length_le (hvalid.shaped.depth hsome)] at haffected hunaffected
  refine ⟨info', hinfo', ?_⟩
  rw [hvalid.findEffectiveStrategyMeasurements_eq hsome,
    hvalid'.findEffectiveStrategyMeasurements_eq (isSome_of_measurementsEntry hinfo')]
  rw [hinfo', cleanAt] at hentry
  split_ifs at hentry with hclear
  · -- the types differ, and the strategy changes
    rw [clearStrategyInfo, hinfo] at hentry
    rw [(haffected hclear.2).1, (haffected hclear.2).2]
    refine ⟨fun _ => Option.some.inj hentry, fun heq => absurd ?_ hclear.1⟩
    rw [Option.some.inj heq]
  · refine ⟨fun htypes => absurd ?_ htypes, fun _ => Option.some.inj (hentry.trans hinfo)⟩
    by_cases hbelow : Below t.strategyAt prefixName nte
    · have hsame : registry.find oldStrategy = registry.find newStrategy := by
        by_contra hdiffer
        exact hclear ⟨hdiffer, hbelow⟩
      rw [(haffected hbelow).1, (haffected hbelow).2, typeOf, typeOf, Option.map_some, Option.map_some, hsame]
    · rw [hunaffected hbelow]

end Changed

/-! ## The operations -/

theorem findEffectiveStrategy_congr (h : ∀ m, t'.tablesAt m = t.tablesAt m) (name : Name) :
    t'.findEffectiveStrategy name = t.findEffectiveStrategy name := by
  have hstrategy : t'.strategyAt = t.strategyAt := by
    funext m
    rw [strategyAt, h]
    rfl
  rw [findEffectiveStrategy_eq, findEffectiveStrategy_eq, hstrategy]

theorem tablesAt_setStrategy {strategy : Option Name} (hpre : (t.nameTree.find? prefixName).isSome) (m : Name) :
    (t.setStrategy prefixName strategy).tablesAt m =
      if prefixName = m then { t.tablesAt m with strategyChoiceEntry := strategy } else t.tablesAt m := by
  rw [setStrategy, tablesAt_edit_eq]
  simp only [hpre, and_true]

/-- The choice at the prefix does not matter for what is cleared. -/
theorem cleanAt_setStrategy {strategy : Option Name} (differ : Prop)
    (h : ∀ m, t'.tablesAt m =
      if prefixName = m then { t.tablesAt m with strategyChoiceEntry := strategy } else t.tablesAt m) (m : Name) :
    t'.cleanAt differ prefixName m =
      if prefixName = m then { t.cleanAt differ prefixName m with strategyChoiceEntry := strategy }
      else t.cleanAt differ prefixName m := by
  have hstrategy : t'.strategyAt = Function.update t.strategyAt prefixName strategy := by
    funext m
    rw [strategyAt, h]
    by_cases hm : prefixName = m
    · rw [if_pos hm, hm, Function.update_self]
    · rw [if_neg hm, Function.update_of_ne (Ne.symm hm)]
      rfl
  have hbelow : Below t'.strategyAt prefixName m ↔ Below t.strategyAt prefixName m := by
    rw [hstrategy, below_update]
  rw [cleanAt, cleanAt, h]
  by_cases hclear : differ ∧ Below t.strategyAt prefixName m
  · rw [if_pos hclear, if_pos ⟨hclear.1, hbelow.mpr hclear.2⟩]
    split_ifs
    · rfl
    · rfl
  · rw [if_neg hclear, if_neg fun hclear' => hclear ⟨hclear'.1, hbelow.mp hclear'.2⟩]

theorem cleanAt_of_not {differ : Prop} (h : ¬ differ) (m : Name) :
    t.cleanAt differ prefixName m = t.tablesAt m := by
  rw [cleanAt, if_neg fun hclear => h hclear.1]

theorem tablesAt_eq_setStrategy {strategy : Option Name} (h : ∀ m, t'.tablesAt m = t.tablesAt m)
    (hchoice : (t'.tablesAt prefixName).strategyChoiceEntry = strategy) (m : Name) :
    t'.tablesAt m =
      if prefixName = m then { t.tablesAt m with strategyChoiceEntry := strategy } else t.tablesAt m := by
  split_ifs with hm
  · rw [← hm, ← hchoice, h]
  · exact h m

/-! ## `insert` and `erase` -/

theorem Valid.changeStrategy_setStrategy (hvalid : t'.Valid) (registry : StrategyRegistry)
    (hpre : (t'.nameTree.find? prefixName).isSome) {strategy : Option Name} {oldStrategy newStrategy : Name}
    (h : ∀ m, t'.tablesAt m =
      if prefixName = m then { t.tablesAt m with strategyChoiceEntry := strategy } else t.tablesAt m)
    (strategy' : Option Name) :
    ∃ t'', t'.changeStrategy registry prefixName oldStrategy newStrategy = some t'' ∧
      (t''.nameTree.find? prefixName).isSome ∧
      ∀ m, (t''.setStrategy prefixName strategy').tablesAt m =
        if prefixName = m then
          { t.cleanAt (registry.find oldStrategy ≠ registry.find newStrategy) prefixName m with
            strategyChoiceEntry := strategy' }
        else t.cleanAt (registry.find oldStrategy ≠ registry.find newStrategy) prefixName m := by
  obtain ⟨t'', hchange, hnodes, htables⟩ :=
    hvalid.changeStrategy_spec registry hpre oldStrategy newStrategy
  have hpre' := (hnodes prefixName).trans hpre
  refine ⟨t'', hchange, hpre', fun m => ?_⟩
  rw [tablesAt_setStrategy hpre', htables, cleanAt_setStrategy _ h]
  by_cases hm : prefixName = m
  · rw [if_pos hm, if_pos hm, if_pos hm]
  · rw [if_neg hm, if_neg hm, if_neg hm]

theorem findEffectiveStrategy_of_strategyAt (hdepth : prefixName.length ≤ maxDepth) {strategy : Name}
    (h : t.strategyAt prefixName = some strategy) : t.findEffectiveStrategy prefixName = some strategy := by
  have hlpm : IsLpm t.strategyAt prefixName (min prefixName.length maxDepth) prefixName strategy :=
    ⟨List.prefix_refl _, le_min le_rfl hdepth, h, fun m hm _ hlt =>
      absurd hm.length_le (Nat.not_le.mpr hlt)⟩
  rw [findEffectiveStrategy_eq, (lpm_eq_some_iff (min_le_left _ _)).mpr hlpm]
  rfl

/-- **`insert`** replaces the choice at the prefix. -/
theorem Valid.strategyInsert_changed (h : t.Valid) {strategyName strategy : Name}
    (hcreate : registry.create strategyName = .created strategy)
    (hinsert : t.strategyInsert registry prefixName strategyName = some (t', .ok)) :
    ∃ oldStrategy, StrategyChanged registry t t' prefixName (some strategy) oldStrategy strategy := by
  unfold strategyInsert at hinsert
  rw [hcreate] at hinsert
  split_ifs at hinsert with hdepth
  · cases hinsert
  have hdepth := Nat.not_lt.mp hdepth
  dsimp only at hinsert
  -- the tree that `lookup` has grown
  have hlookup : ∀ m, (t.lookup prefixName prefixName.length).tablesAt m = t.tablesAt m := fun m =>
    tablesAt_lookup prefixName prefixName.length m
  have hvalid : (t.lookup prefixName prefixName.length).Valid :=
    (Change.lookup le_rfl hdepth : Change True _ _).valid h
  have hpre : ((t.lookup prefixName prefixName.length).nameTree.find? prefixName).isSome := by
    simpa using t.isSome_lookup_self prefixName prefixName.length
  have hold := findEffectiveStrategy_congr hlookup prefixName
  have hafter : ∀ {t'' : Tables}, (t''.nameTree.find? prefixName).isSome →
      (t''.setStrategy prefixName (some strategy)).findEffectiveStrategy prefixName = some strategy := by
    intro t'' hpre
    refine findEffectiveStrategy_of_strategyAt hdepth ?_
    rw [strategyAt, tablesAt_setStrategy hpre, if_pos rfl]
  generalize t.lookup prefixName prefixName.length = t₁ at *
  cases hchoice : (t₁.tablesAt prefixName).strategyChoiceEntry with
  | some oldStrategy =>
    rw [hchoice] at hinsert
    have hbefore : t₁.findEffectiveStrategy prefixName = some oldStrategy :=
      findEffectiveStrategy_of_strategyAt hdepth hchoice
    have hset := tablesAt_eq_setStrategy hlookup hchoice
    dsimp only at hinsert
    split_ifs at hinsert with hsame
    · cases hinsert
      subst hsame
      refine ⟨oldStrategy, fun m => ?_, hold.symm.trans hbefore, hbefore, hdepth⟩
      rw [hset, cleanAt_of_not fun hne => hne rfl]
    · obtain ⟨t₂, hchange, hpre₂, htables⟩ :=
        hvalid.changeStrategy_setStrategy registry hpre hset (some strategy)
      rw [hchange] at hinsert
      cases hinsert
      exact ⟨oldStrategy, htables, hold.symm.trans hbefore, hafter hpre₂, hdepth⟩
  | none =>
    rw [hchoice] at hinsert
    obtain ⟨oldStrategy, hbefore, hinsert⟩ := Option.bind_eq_some_iff.mp hinsert
    have hvalid₁ : (t₁.setStrategy prefixName (some [])).Valid :=
      (Change.setStrategy fun _ => rfl : Change True _ _).valid hvalid
    have hpre₁ : ((t₁.setStrategy prefixName (some [])).nameTree.find? prefixName).isSome :=
      (t₁.isSome_edit ..).trans hpre
    have hset : ∀ m, (t₁.setStrategy prefixName (some [])).tablesAt m =
        if prefixName = m then { t.tablesAt m with strategyChoiceEntry := some [] } else t.tablesAt m := by
      intro m
      rw [tablesAt_setStrategy hpre, hlookup]
    obtain ⟨t₂, hchange, hpre₂, htables⟩ :=
      hvalid₁.changeStrategy_setStrategy registry hpre₁ hset (some strategy)
    rw [hchange] at hinsert
    cases hinsert
    exact ⟨oldStrategy, htables, hold.symm.trans hbefore, hafter hpre₂, hdepth⟩

/-- **`erase`** takes away the choice at the prefix, if there is one. -/
theorem Valid.strategyErase_changed (h : t.Valid) (hchoice : (t.strategyAt prefixName).isSome)
    (herase : t.strategyErase registry prefixName = some t') :
    ∃ oldStrategy newStrategy, t.findEffectiveStrategy prefixName.dropLast = some newStrategy ∧
      StrategyChanged registry t t' prefixName none oldStrategy newStrategy := by
  obtain ⟨oldStrategy, hold⟩ := Option.isSome_iff_exists.mp hchoice
  have hpre : (t.nameTree.find? prefixName).isSome := by
    refine isSome_of_tablesAt fun hempty => ?_
    rw [strategyAt, tablesAt, hempty] at hold
    cases hold
  have hdepth := h.shaped.depth hpre
  have hfind : t.nameTree.findExactMatch prefixName prefixName.length = some prefixName := by
    rw [findExactMatch, min_self, List.take_length, if_neg (Nat.not_lt.mpr hdepth), if_pos hpre]
  have hset := tablesAt_eq_setStrategy (fun m => rfl) hold
  unfold strategyErase at herase
  rw [hfind] at herase
  dsimp only at herase
  rw [show (t.tablesAt prefixName).strategyChoiceEntry = some oldStrategy from hold] at herase
  split_ifs at herase with hroot
  obtain ⟨newStrategy, hnew, herase⟩ := Option.bind_eq_some_iff.mp herase
  obtain ⟨t₁, hchange, hpre₁, htables⟩ := h.changeStrategy_setStrategy registry hpre hset none
  rw [hchange] at herase
  cases herase
  have hvalid : (t₁.setStrategy prefixName none).Valid := by
    have hchanges : Changes True t t₁ := changeStrategy_changes hchange
    exact (Change.setStrategy fun hnil => absurd hnil hroot : Change True _ _).valid (hchanges.valid h)
  have htables' : ∀ m, ((t₁.setStrategy prefixName none).eraseIfEmpty prefixName true).tablesAt m = _ :=
    fun m => (hvalid.shaped.tablesAt_eraseIfEmpty prefixName true m).trans (htables m)
  refine ⟨oldStrategy, newStrategy, hnew, htables', findEffectiveStrategy_of_strategyAt hdepth hold, ?_, hdepth⟩
  rw [← hnew, findEffectiveStrategy_eq, findEffectiveStrategy_eq, strategyAt_eq_update htables', min_eq_left hdepth,
    lpm_update_none hroot, min_eq_left]
  exact (List.length_dropLast ▸ Nat.sub_le _ _ : prefixName.dropLast.length ≤ prefixName.length).trans hdepth

theorem StrategyChanged.allRight_iff {strategy : Option Name} {oldStrategy newStrategy : Name}
    (h : StrategyChanged registry t t' prefixName strategy oldStrategy newStrategy) (hvalid : t.Valid)
    (hvalid' : t'.Valid) :
    AllRight registry t t' ↔
      (typeOf registry (t.findEffectiveStrategy prefixName) ≠ typeOf registry (some newStrategy) →
        ∀ nte, ∀ e ∈ (t.tablesAt nte).pitEntries, Misplaced t prefixName e → Cleared e) := by
  have htypes : typeOf registry (t.findEffectiveStrategy prefixName) ≠ typeOf registry (some newStrategy) ↔
      registry.find oldStrategy ≠ registry.find newStrategy := by
    rw [h.before, typeOf, typeOf, Option.map_some, Option.map_some, Ne, Option.some_inj]
  rw [htypes]
  constructor
  · intro hright hdiffer nte e he
    exact (h.pitRight_iff hvalid hvalid' he).mp (hright.1 nte e he) hdiffer
  · intro hcleared
    refine ⟨fun nte e he => ?_, fun nte info hinfo => h.measurementsRight hvalid hvalid' hinfo⟩
    exact (h.pitRight_iff hvalid hvalid' he).mpr fun hdiffer => hcleared hdiffer nte e he

theorem strategyErase_of_none (hchoice : t.strategyAt prefixName = none)
    (herase : t.strategyErase registry prefixName = some t') : t' = t := by
  unfold strategyErase at herase
  split_ifs at herase
  cases hfind : t.nameTree.findExactMatch prefixName prefixName.length with
  | none =>
    rw [hfind] at herase
    exact (Option.some.inj herase).symm
  | some nte =>
    obtain ⟨rfl, -⟩ := findExactMatch_eq_some hfind
    rw [hfind] at herase
    dsimp only at herase
    rw [show (t.tablesAt nte).strategyChoiceEntry = none from hchoice] at herase
    exact (Option.some.inj herase).symm

theorem allRight_self (t : Tables) : AllRight registry t t :=
  ⟨fun _ e he => ⟨e, he, rfl, fun hne => absurd rfl hne, fun _ => rfl⟩, fun _ info hinfo =>
    ⟨info, hinfo, fun hne => absurd rfl hne, fun _ => rfl⟩⟩

/-- A forwarder with a PIT entry for a name with a digest, on which the default strategy has placed
StrategyInfo. -/
def markedTables : Tables :=
  (run insertionSort freeRegistry (initial (some nameA))
    [.pitFindOrInsert pitADigest.interest true, .pitUpdate nameA 0 [] [] [1]]).getD (initial none)

theorem run_markedTables :
    run insertionSort freeRegistry (initial (some nameA))
      [.pitFindOrInsert pitADigest.interest true, .pitUpdate nameA 0 [] [] [1]] = some markedTables := rfl

def chosenTables : Tables :=
  ((markedTables.strategyInsert freeRegistry nameADigest nameAB).map Prod.fst).getD (initial none)

end Ns3Ndn.Tables
