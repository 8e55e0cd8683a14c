import Ns3Ndn.Table.Match

/-!
# Measurements of the ASF strategy

`NFD/daemon/fw/asf-measurements.cpp` and `table/measurements-accessor.hpp`: a `NamespaceInfo` is a StrategyInfo item on a
measurements entry, with a `FaceInfo` for each face. A strategy sees only the entries that it is the effective strategy of.

An instance of the strategy belongs to one strategy choice entry, and is known here by the node of that entry. The scheduled
removal of entries and items is a step of its own, at any time.

* `getOrCreateNamespaceInfo_node`: the second one ends at the FIB entry or at a node that is not above it.
-/

namespace Ns3Ndn

open Function LpmLib NameTree Tables

/-- `AsfStrategy`: the node of its strategy choice entry, and `m_nMaxTimeouts`. -/
structure AsfStrategy where
  nte : Name
  nMaxTimeouts : ℕ := 3
deriving DecidableEq

/-- What the callback of `scheduleTimeout` holds. -/
structure TimeoutEvent where
  strategy : AsfStrategy
  name : Name
  faceId : FaceId
deriving DecidableEq

/-! ## Faces -/

/-- `FaceInfo`. Times are in nanoseconds, and of the estimator there is `m_sRtt`. -/
structure FaceInfo where
  sRtt : ℤ := -1
  lastRtt : ℤ := -1
  lastInterestName : Name := []
  nTimeouts : ℕ := 0
  timeoutEvent : Option TimeoutEvent := none
deriving DecidableEq

namespace FaceInfo

def RTT_NO_MEASUREMENT : ℤ := -1

def RTT_TIMEOUT : ℤ := -2

variable (info : FaceInfo)

def isTimeoutScheduled : Bool := info.timeoutEvent.isSome

def scheduleTimeout (interestName : Name) (cb : TimeoutEvent) : Option FaceInfo :=
  if info.isTimeoutScheduled then none else some { info with lastInterestName := interestName, timeoutEvent := some cb }

def cancelTimeout (name : Name) : FaceInfo :=
  if info.lastInterestName.isPrefixOf name then { info with timeoutEvent := none } else info

/-- `RttEstimator::addMeasurement`, with `alpha` of 1 / 8. -/
def smoothed (rtt : ℕ) : ℤ := if info.sRtt = -1 then rtt else (7 * info.sRtt + rtt) / 8

def recordRtt (rtt : ℕ) : FaceInfo := { info with lastRtt := rtt, sRtt := info.smoothed rtt }

def recordTimeout (interestName : Name) : FaceInfo := { info with lastRtt := RTT_TIMEOUT }.cancelTimeout interestName

def hasTimeout : Bool := info.lastRtt = RTT_TIMEOUT

@[simp] theorem cancelTimeout_lastRtt (name : Name) : (info.cancelTimeout name).lastRtt = info.lastRtt := by
  unfold cancelTimeout
  split <;> rfl

@[simp] theorem cancelTimeout_nTimeouts (name : Name) : (info.cancelTimeout name).nTimeouts = info.nTimeouts := by
  unfold cancelTimeout
  split <;> rfl

end FaceInfo

structure NamespaceInfo where
  fiMap : FaceId → Option FaceInfo := fun _ => none
  isProbingDue : Bool := false
  isFirstProbeScheduled : Bool := false

/-- `NamespaceInfo::getTypeId`. -/
def NamespaceInfo.typeId : ℕ := 1030

/-- `fib::Entry`: its node, or none for `s_emptyEntry`, and its next hops. -/
structure FibEntry where
  nte : Option Name
  nextHops : List NextHop
  depth : (nte.getD []).length ≤ maxDepth
  nodup : (nextHops.map NextHop.face).Nodup

/-- `getPrefix`. -/
def FibEntry.getPrefix (e : FibEntry) : Name := e.nte.getD []

/-- The tables, and the items by the nodes of their measurements entries. -/
structure AsfMeasurements where
  tables : Tables
  infos : Name → NamespaceInfo

/-! ## The accessor -/

def nteHasMeasurementsEntry : EntrySelector := fun _ e => e.measurementsEntry.isSome

namespace AsfMeasurements

section Accessor

variable (s : AsfMeasurements) (strategy : AsfStrategy)

/-- The item of a measurements entry. -/
def namespaceInfo (me : Name) : Option NamespaceInfo :=
  if NamespaceInfo.typeId ∈ (s.tables.tablesAt me).measurementsEntry.getD [] then some (s.infos me) else none

/-- The strategy is the effective strategy of the measurements entry at a node. -/
def governs (me : Name) : Bool :=
  s.tables.nameTree.findLongestPrefixMatchEntry Tables.nteHasStrategyChoiceEntry me = some strategy.nte

/-- `MeasurementsAccessor::filter`. -/
def filter (me : Option Name) : Option Name := me.filter (s.governs strategy)

/-- `MeasurementsAccessor::get(name)`. -/
def get (name : Name) : AsfMeasurements × Option Name :=
  let s := { s with tables := s.tables.measurementsGet name }
  (s, s.filter strategy (some (name.take (min name.length maxDepth))))

/-- `MeasurementsAccessor::get(fibEntry)`. -/
def getFib (fibEntry : FibEntry) : Option (AsfMeasurements × Option Name) :=
  (s.tables.measurementsGetFib fibEntry.nte).map fun tables =>
    let s := { s with tables := tables }
    (s, s.filter strategy (some fibEntry.getPrefix))

/-- `MeasurementsAccessor::findLongestPrefixMatch`. -/
def findLongestPrefixMatch (name : Name) : Option Name :=
  s.filter strategy (s.tables.nameTree.findLongestPrefixMatch nteHasMeasurementsEntry (name.take maxDepth))

def insertStrategyInfo (me : Name) : AsfMeasurements :=
  if (s.namespaceInfo me).isSome then s
  else
    { tables := s.tables.edit me fun te =>
        { te with measurementsEntry := te.measurementsEntry.map (· ++ [NamespaceInfo.typeId]) }
      infos := update s.infos me {} }

/-- A change of an item. -/
def modify (me : Name) (f : NamespaceInfo → NamespaceInfo) : AsfMeasurements :=
  { s with infos := update s.infos me (f (s.infos me)) }

/-- `getNamespaceInfo`: the node of the item. -/
def getNamespaceInfo (name : Name) : AsfMeasurements × Option Name :=
  match s.findLongestPrefixMatch strategy name with
  | none => (s, none)
  | some me => (s.insertStrategyInfo me, some me)

/-- The loop of `getOrCreateNamespaceInfo` over `n` lengths from `prefixLen` on. It must find an entry. -/
def findPart (name : Name) : (n prefixLen : ℕ) → AsfMeasurements → Option (AsfMeasurements × Name)
  | 0, _, _ => none
  | n + 1, prefixLen, s =>
    match s.get strategy (name.take prefixLen) with
    | (s, some me) => some (s, me)
    | (s, none) => findPart name n (prefixLen + 1) s

/-- `getOrCreateNamespaceInfo`: the node of the item. -/
def getOrCreateNamespaceInfo (fibEntry : FibEntry) (name : Name) : Option (AsfMeasurements × Name) :=
  (s.getFib strategy fibEntry).bind fun
    | (s, some me) => some (s.insertStrategyInfo me, me)
    | (s, none) =>
      (findPart strategy name (name.length - fibEntry.getPrefix.length) (fibEntry.getPrefix.length + 1) s).map fun r =>
        (r.1.insertStrategyInfo r.2, r.2)

end Accessor

/-! ## What the accessor does -/

section Spec

variable {s s' : AsfMeasurements} {strategy : AsfStrategy} {fibEntry : FibEntry} {name me : Name}

structure LooksUp (s s' : AsfMeasurements) : Prop where
  valid : s'.tables.Valid
  strategyAt : s'.tables.strategyAt = s.tables.strategyAt
  infos : s'.infos = s.infos
  isSome : ∀ m, (s.tables.nameTree.find? m).isSome → (s'.tables.nameTree.find? m).isSome

theorem LooksUp.trans {s'' : AsfMeasurements} (h : LooksUp s s') (h' : LooksUp s' s'') : LooksUp s s'' where
  valid := h'.valid
  strategyAt := h'.strategyAt.trans h.strategyAt
  infos := h'.infos.trans h.infos
  isSome m hm := h'.isSome m (h.isSome m hm)

theorem strategyAt_edit (t : Tables) (nte : Name) (f : TableEntries → TableEntries)
    (hf : ∀ te, (f te).strategyChoiceEntry = te.strategyChoiceEntry) : (t.edit nte f).strategyAt = t.strategyAt := by
  funext m
  unfold Tables.strategyAt
  rw [tablesAt_edit_eq]
  split
  · exact hf _
  · rfl

theorem looksUp_measurementsGetNode (h : s.tables.Valid) (nte : Name) :
    LooksUp s { s with tables := s.tables.measurementsGetNode nte } where
  valid := (measurementsGetNode_changes nte : Changes True _ _).valid h
  strategyAt := strategyAt_edit _ _ _ fun _ => rfl
  infos := rfl
  isSome m hm := (isSome_edit s.tables nte _ m).symm ▸ hm

theorem looksUp_lookup (h : s.tables.Valid) {prefixLen : ℕ} (hlen : prefixLen ≤ name.length) (hdepth : prefixLen ≤ maxDepth) :
    LooksUp s { s with tables := s.tables.lookup name prefixLen } where
  valid := (Change.lookup hlen hdepth : Change True _ _).valid h
  strategyAt := by
    funext m
    unfold Tables.strategyAt Tables.tablesAt Tables.lookup
    rw [tablesAt_lookup]
  infos := rfl
  isSome m hm := (isSome_lookup name prefixLen m).2 (Or.inl hm)

theorem get_looksUp (h : s.tables.Valid) (strategy : AsfStrategy) (name : Name) : LooksUp s (s.get strategy name).1 :=
  (looksUp_lookup h (min_le_left _ _) (min_le_right _ _)).trans
    (looksUp_measurementsGetNode (looksUp_lookup h (min_le_left _ _) (min_le_right _ _)).valid _)

theorem getFib_looksUp (h : s.tables.Valid) {r : Option Name} (hget : s.getFib strategy fibEntry = some (s', r)) :
    LooksUp s s' ∧ r = s'.filter strategy (some fibEntry.getPrefix) := by
  obtain ⟨tables, htables, heq⟩ := Option.map_eq_some_iff.1 hget
  obtain ⟨rfl, rfl⟩ := Prod.mk.inj heq
  refine ⟨?_, rfl⟩
  unfold measurementsGetFib at htables
  split at htables
  · obtain rfl := Option.some.inj htables
    have hlookup : LooksUp s { s with tables := s.tables.lookup [] 0 } := looksUp_lookup h le_rfl (Nat.zero_le _)
    exact hlookup.trans (looksUp_measurementsGetNode hlookup.valid _)
  · split at htables
    · obtain rfl := Option.some.inj htables
      exact looksUp_measurementsGetNode h _
    · cases htables

theorem governs_eq (h : s.tables.Valid) (strategy : AsfStrategy) (hme : (s.tables.nameTree.find? me).isSome) :
    s.governs strategy me =
      decide ((lpm s.tables.strategyAt me (min me.length maxDepth)).map Prod.fst = some strategy.nte) := by
  unfold governs
  rw [h.shaped.findLongestPrefixMatchEntry_eq hme]
  congr 2
  exact findLongestPrefixMatch_eq_lpm _ TableEntries.strategyChoiceEntry rfl me

theorem LooksUp.governs_eq (h : LooksUp s s') (hvalid : s.tables.Valid) (strategy : AsfStrategy)
    (hme : (s.tables.nameTree.find? me).isSome) : s'.governs strategy me = s.governs strategy me := by
  rw [AsfMeasurements.governs_eq h.valid strategy (h.isSome me hme), AsfMeasurements.governs_eq hvalid strategy hme,
    h.strategyAt]

/-- The loop ends at a part of the name with more components than it began with, or with as many as there may be. -/
theorem findPart_spec {n prefixLen : ℕ} {me : Name} (h : s.tables.Valid)
    (hfind : findPart strategy name n prefixLen s = some (s', me)) :
    LooksUp s s' ∧ s'.governs strategy me ∧ ∃ k, prefixLen ≤ k ∧ k < prefixLen + n ∧ me = (name.take k).take maxDepth := by
  induction n generalizing prefixLen s with
  | zero => cases hfind
  | succ n ih =>
    have hlooks := get_looksUp h strategy (name.take prefixLen)
    unfold findPart at hfind
    split at hfind
    · next s₁ me₁ hget =>
      obtain ⟨rfl, rfl⟩ := Prod.mk.inj (Option.some.inj hfind)
      rw [hget] at hlooks
      have hs₁ : (s.get strategy (name.take prefixLen)).1 = s₁ := by rw [hget]
      have hfilter : Option.filter ((s.get strategy (name.take prefixLen)).1.governs strategy)
          (some ((name.take prefixLen).take (min (name.take prefixLen).length maxDepth))) = some me₁ :=
        congrArg Prod.snd hget
      obtain ⟨hnode, hgoverns⟩ := Option.filter_eq_some_iff.1 hfilter
      refine ⟨hlooks, hs₁ ▸ hgoverns, prefixLen, le_rfl, by omega, ?_⟩
      rw [← Option.some.inj hnode, min_comm, ← List.take_eq_take_min]
    · next s₁ hget =>
      rw [hget] at hlooks
      obtain ⟨hrest, hgoverns, k, hlow, hhigh, rfl⟩ := ih hlooks.valid hfind
      exact ⟨hlooks.trans hrest, hgoverns, k, by omega, by omega, rfl⟩

/-- Whether the strategy governs a FIB entry is the same before and after the entry has its measurements. -/
theorem getFib_governs (h : s.tables.Valid) {r : Option Name} (hget : s.getFib strategy fibEntry = some (s', r)) :
    (s'.tables.nameTree.find? fibEntry.getPrefix).isSome ∧
      s'.governs strategy fibEntry.getPrefix = s.governs strategy fibEntry.getPrefix := by
  obtain ⟨hlooks, -⟩ := getFib_looksUp h hget
  have hnode : (s'.tables.nameTree.find? fibEntry.getPrefix).isSome := by
    obtain ⟨tables, htables, heq⟩ := Option.map_eq_some_iff.1 hget
    obtain ⟨rfl, -⟩ := Prod.mk.inj heq
    unfold measurementsGetFib at htables
    unfold FibEntry.getPrefix
    split at htables
    · next hnte =>
      obtain rfl := Option.some.inj htables
      rw [hnte]
      exact (isSome_edit _ _ _ _).symm ▸ isSome_lookup_self s.tables [] 0
    · next nte hnte =>
      split at htables
      · next hfib =>
        obtain rfl := Option.some.inj htables
        rw [hnte]
        exact (isSome_edit _ _ _ _).symm ▸ isSome_of_fibEntry hfib
      · cases htables
  refine ⟨hnode, ?_⟩
  by_cases hbefore : (s.tables.nameTree.find? fibEntry.getPrefix).isSome
  · exact hlooks.governs_eq h strategy hbefore
  · -- the root is made for `s_emptyEntry`, and no strategy was chosen there
    have hnone : fibEntry.nte = none := by
      by_contra hsome
      obtain ⟨nte, hnte⟩ := Option.ne_none_iff_exists'.1 hsome
      obtain ⟨tables, htables, -⟩ := Option.map_eq_some_iff.1 hget
      rw [hnte, measurementsGetFib] at htables
      split at htables
      · next hfib => exact hbefore (by rw [FibEntry.getPrefix, hnte]; exact isSome_of_fibEntry hfib)
      · cases htables
    have hroot : fibEntry.getPrefix = [] := by rw [FibEntry.getPrefix, hnone]; rfl
    rw [hroot] at hbefore hnode ⊢
    have hbefore' : s.tables.nameTree.find? [] = none := Option.not_isSome_iff_eq_none.1 hbefore
    have hchoice : s.tables.strategyAt [] = none := by
      rw [Tables.strategyAt, Tables.tablesAt, NameTree.tablesAt, hbefore']
      rfl
    rw [governs_eq hlooks.valid strategy hnode, hlooks.strategyAt]
    simp [lpm, hchoice, governs, findLongestPrefixMatchEntry, findUp, hbefore']

/-- **The item that is consulted** is at the FIB entry when the strategy governs it, and otherwise at no node above. -/
theorem getOrCreateNamespaceInfo_node (h : s.tables.Valid)
    (hget : s.getOrCreateNamespaceInfo strategy fibEntry name = some (s', me)) :
    if s.governs strategy fibEntry.getPrefix then me = fibEntry.getPrefix else ¬ me <+: fibEntry.getPrefix := by
  obtain ⟨⟨s₁, r⟩, hfib, hrest⟩ := Option.bind_eq_some_iff.1 hget
  obtain ⟨hlooks, rfl⟩ := getFib_looksUp h hfib
  obtain ⟨hnode, hgoverns⟩ := getFib_governs h hfib
  rw [← hgoverns]
  by_cases hg : s₁.governs strategy fibEntry.getPrefix
  · have hfilter : s₁.filter strategy (some fibEntry.getPrefix) = some fibEntry.getPrefix :=
      Option.filter_eq_some_iff.2 ⟨rfl, hg⟩
    rw [hfilter] at hrest
    rw [if_pos hg]
    exact (congrArg Prod.snd (Option.some.inj hrest)).symm
  · have hfilter : s₁.filter strategy (some fibEntry.getPrefix) = none := by
      simp [filter, hg]
    rw [hfilter] at hrest
    obtain ⟨⟨s₂, m⟩, hpart, heq⟩ := Option.map_eq_some_iff.1 hrest
    obtain rfl : m = me := congrArg Prod.snd heq
    obtain ⟨hlooks₂, hg₂, k, hlow, hhigh, rfl⟩ := findPart_spec hlooks.valid hpart
    rw [if_neg hg]
    intro hbegins
    -- only a node of the greatest depth can be both below the FIB entry and a prefix of it
    have hlength : ((name.take k).take maxDepth).length = min k maxDepth := by
      rw [List.length_take, List.length_take]
      omega
    have hle := hbegins.length_le
    have hdepth := fibEntry.depth
    have hsame : (name.take k).take maxDepth = fibEntry.getPrefix := by
      apply hbegins.eq_of_length
      unfold FibEntry.getPrefix at hlow hhigh hle ⊢
      omega
    rw [hsame, hlooks₂.governs_eq hlooks.valid strategy hnode] at hg₂
    exact hg hg₂

@[simp] theorem namespaceInfo_modify (s : AsfMeasurements) (me m : Name) (f : NamespaceInfo → NamespaceInfo) :
    (s.modify me f).namespaceInfo m = if m = me then (s.namespaceInfo m).map f else s.namespaceInfo m := by
  unfold namespaceInfo modify
  by_cases hm : m = me
  · subst hm
    simp only [update_self, if_true]
    split <;> rfl
  · simp [hm]

theorem namespaceInfo_insertStrategyInfo (s : AsfMeasurements) (hme : (s.tables.tablesAt me).measurementsEntry.isSome)
    (m : Name) : (s.insertStrategyInfo me).namespaceInfo m =
      if m = me then some ((s.namespaceInfo me).getD {}) else s.namespaceInfo m := by
  unfold insertStrategyInfo
  by_cases hsome : (s.namespaceInfo me).isSome
  · rw [if_pos hsome]
    obtain ⟨info, hinfo⟩ := Option.isSome_iff_exists.1 hsome
    split
    · next hm => rw [hm, hinfo]; rfl
    · rfl
  · rw [if_neg hsome, Option.not_isSome_iff_eq_none.1 hsome]
    obtain ⟨ids, hids⟩ := Option.isSome_iff_exists.1 hme
    have hnode : (s.tables.nameTree.find? me).isSome := by
      apply isSome_of_tablesAt
      intro hempty
      rw [Tables.tablesAt, hempty] at hids
      cases hids
    unfold namespaceInfo
    dsimp only
    rw [tablesAt_edit_eq]
    by_cases hm : m = me
    · subst hm
      simp [hnode, hids]
    · simp [hm, Ne.symm hm]

end Spec

end AsfMeasurements

end Ns3Ndn
