import Ns3Ndn.Fw.AsfProbing

/-!
# Timeouts in the ASF strategy

`NFD/daemon/fw/asf-strategy.cpp`: Data, timeouts and Nacks change the measurements of a face. A timeout is ignored until
`m_nMaxTimeouts` of them are counted, and then it demotes the face: its last RTT becomes `RTT_TIMEOUT`. The count goes on
when Data comes back.

The steps are the parts of the handlers that touch measurements, of all instances of the strategy, with everything else that
changes the tables in between. Timers run out at any time. `log` is not in the source: it says what happened to each face.

* **`run_demotesLate`**: they all do in a run where Data is recorded only while no timeout is counted.
-/

namespace Ns3Ndn

open Function Tables

/-- What happens to the `FaceInfo` of a face, in the item at a node. -/
inductive FaceEvent where
  | created
  | data
  | timeout
  | nack
deriving DecidableEq

/-- The measurements, and what happened to the faces, the last first. -/
structure AsfState where
  measurements : AsfMeasurements
  log : List ((Name × FaceId) × FaceEvent) := []

/-- The timeouts that were counted for a face since its last Data, or since its `FaceInfo` was made. -/
def counted (face : Name × FaceId) : List ((Name × FaceId) × FaceEvent) → ℕ
  | [] => 0
  | (other, event) :: log =>
    if other = face then
      match event with
      | .created => 0
      | .data => 0
      | .timeout => counted face log + 1
      | .nack => counted face log
    else counted face log

inductive AsfOp where
  /-- The rest of the forwarder. -/
  | table (op : TableOp)
  /-- `m_measurementExpiration`. -/
  | expire (me : Name) (face : FaceId)
  /-- `getFaceInfo`, of `getBestFaceForForwarding` and `getFaceToProbe`. -/
  | getFaceInfo (strategy : AsfStrategy) (fibEntry : FibEntry) (interestName : Name)
  | isProbingNeeded (strategy : AsfStrategy) (fibEntry : FibEntry) (interestName : Name)
  | afterForwardingProbe (strategy : AsfStrategy) (fibEntry : FibEntry) (interestName : Name)
  | probeEvent (strategy : AsfStrategy) (fibPrefix : Name)
  | forwardInterest (strategy : AsfStrategy) (fibEntry : FibEntry) (interestName : Name) (face : FaceId)
  /-- With the RTT when there is an out-record. -/
  | beforeSatisfyInterest (strategy : AsfStrategy) (pitName dataName : Name) (face : FaceId) (rtt : Option ℕ)
  | afterReceiveNack (strategy : AsfStrategy) (pitName : Name) (face : FaceId)
  /-- `m_timeoutEvent` of a face. -/
  | timeout (me : Name) (face : FaceId)

namespace AsfMeasurements

/-- A change of a `FaceInfo`. -/
def setFaceInfo (s : AsfMeasurements) (me : Name) (face : FaceId) (info : Option FaceInfo) : AsfMeasurements :=
  s.modify me fun ns => { ns with fiMap := update ns.fiMap face info }

def faceInfo (s : AsfMeasurements) (me : Name) (face : FaceId) : Option FaceInfo :=
  (s.namespaceInfo me).bind fun ns => ns.fiMap face

/-- The rest of the forwarder places no item of this type. -/
def keepsItems (s : AsfMeasurements) : TableOp → Bool
  | .measurementsUpdate me info => NamespaceInfo.typeId ∉ info || (s.namespaceInfo me).isSome
  | _ => true

end AsfMeasurements

namespace AsfState

section Handlers

variable (s : AsfState) (strategy : AsfStrategy)

def lookupFace (name : Name) (face : FaceId) : AsfMeasurements × Option (Name × FaceInfo) :=
  match s.measurements.getNamespaceInfo strategy name with
  | (m, none) => (m, none)
  | (m, some me) => (m, ((m.infos me).fiMap face).map (me, ·))

/-- `onTimeoutOrNack`. -/
def onTimeoutOrNack (interestName : Name) (face : FaceId) (isNack : Bool) : AsfState :=
  match s.lookupFace strategy interestName face with
  | (m, none) => { s with measurements := m }
  | (m, some (me, info)) =>
    let nTimeouts := (info.nTimeouts + 1) % 2 ^ 64
    let info := { info with nTimeouts := nTimeouts }
    let info :=
      if nTimeouts < strategy.nMaxTimeouts && ! isNack then info.cancelTimeout interestName
      else info.recordTimeout interestName
    { measurements := m.setFaceInfo me face (some info)
      log := ((me, face), if isNack then .nack else .timeout) :: s.log }

def forwardInterest (fibEntry : FibEntry) (interestName : Name) (face : FaceId) : Option AsfState :=
  (s.measurements.getOrCreateNamespaceInfo strategy fibEntry interestName).bind fun (m, me) =>
    let s : AsfState :=
      match (m.infos me).fiMap face with
      | some _ => { s with measurements := m }
      | none => { measurements := m.setFaceInfo me face (some {}), log := ((me, face), .created) :: s.log }
    ((s.measurements.infos me).fiMap face).bind fun info =>
      if info.isTimeoutScheduled then some s
      else
        (info.scheduleTimeout interestName ⟨strategy, interestName, face⟩).map fun info =>
          { s with measurements := s.measurements.setFaceInfo me face (some info) }

def beforeSatisfyInterest (pitName dataName : Name) (face : FaceId) (rtt : Option ℕ) : AsfState :=
  match s.lookupFace strategy pitName face with
  | (m, none) => { s with measurements := m }
  | (m, some (me, info)) =>
    match rtt with
    | none => { s with measurements := m.setFaceInfo me face (some (info.cancelTimeout dataName)) }
    | some rtt =>
      { measurements := m.setFaceInfo me face (some ((info.recordRtt rtt).cancelTimeout dataName))
        log := ((me, face), .data) :: s.log }

/-- The event of a face is over when it calls `onTimeoutOrNack`. -/
def timeout (me : Name) (face : FaceId) : Option AsfState :=
  (s.measurements.faceInfo me face).bind fun info =>
    info.timeoutEvent.map fun event =>
      let s := { s with measurements := s.measurements.setFaceInfo me face (some { info with timeoutEvent := none }) }
      s.onTimeoutOrNack event.strategy event.name event.faceId false

end Handlers

def step (S : NextHopSort) (registry : StrategyRegistry) (s : AsfState) : AsfOp → Option AsfState
  | .table op =>
    if s.measurements.keepsItems op then
      (Tables.step S registry s.measurements.tables op).map fun tables =>
        { s with measurements := { s.measurements with tables := tables } }
    else none
  | .expire me face => some { s with measurements := s.measurements.setFaceInfo me face none }
  | .getFaceInfo strategy fibEntry interestName =>
    (s.measurements.getOrCreateNamespaceInfo strategy fibEntry interestName).map fun r => { s with measurements := r.1 }
  | .isProbingNeeded strategy fibEntry interestName =>
    (s.measurements.isProbingNeeded strategy fibEntry interestName).map fun r => { s with measurements := r.1 }
  | .afterForwardingProbe strategy fibEntry interestName =>
    (s.measurements.afterForwardingProbe strategy fibEntry interestName).map fun r => { s with measurements := r.1 }
  | .probeEvent strategy fibPrefix => some { s with measurements := s.measurements.probeEvent strategy fibPrefix }
  | .forwardInterest strategy fibEntry interestName face => s.forwardInterest strategy fibEntry interestName face
  | .beforeSatisfyInterest strategy pitName dataName face rtt =>
    some (s.beforeSatisfyInterest strategy pitName dataName face rtt)
  | .afterReceiveNack strategy pitName face => some (s.onTimeoutOrNack strategy pitName face true)
  | .timeout me face => s.timeout me face

def run (S : NextHopSort) (registry : StrategyRegistry) (tables : Tables) (ops : List AsfOp) : Option AsfState :=
  ops.foldlM (step S registry) { measurements := ⟨tables, fun _ => {}⟩ }

/-! ## The law of timeouts -/

section Law

variable (s s' : AsfState)

def firedEvent : AsfOp → Option TimeoutEvent
  | .timeout me face => (s.measurements.faceInfo me face).bind FaceInfo.timeoutEvent
  | _ => none

/-- A timeout that demotes a face comes after as many of them as its strategy allows. -/
def DemotesLate (op : AsfOp) : Prop :=
  ∀ event me face info info', s.firedEvent op = some event → s.measurements.faceInfo me face = some info →
    info.lastRtt ≠ FaceInfo.RTT_TIMEOUT → s'.measurements.faceInfo me face = some info' →
      info'.lastRtt = FaceInfo.RTT_TIMEOUT → event.strategy.nMaxTimeouts ≤ counted (me, face) s'.log

def recordedFace : AsfOp → Option FaceInfo
  | .beforeSatisfyInterest strategy pitName _ face (some _) => (s.lookupFace strategy pitName face).2.map Prod.snd
  | _ => none

def RecordsFresh (op : AsfOp) : Prop := ∀ info, s.recordedFace op = some info → info.nTimeouts = 0

/-- The count of a face that is not demoted is that of its timeouts since the last Data, at most. -/
def Inv : Prop :=
  ∀ me face info, (s.measurements.infos me).fiMap face = some info → info.lastRtt ≠ FaceInfo.RTT_TIMEOUT →
    info.nTimeouts ≤ counted (me, face) s.log

end Law

/-! ### Steps that count nothing -/

/-- No `FaceInfo` is new, and none has another RTT or count. -/
def Quiet (m m' : AsfMeasurements) : Prop :=
  ∀ me face info', (m'.infos me).fiMap face = some info' →
    ∃ info, (m.infos me).fiMap face = some info ∧ info'.lastRtt = info.lastRtt ∧ info'.nTimeouts = info.nTimeouts

section Quiet

variable {m m' m'' : AsfMeasurements} {strategy : AsfStrategy} {name me : Name} {face : FaceId}

theorem Quiet.of_infos (h : m'.infos = m.infos) : Quiet m m' := by
  intro me face info' hinfo
  exact ⟨info', h ▸ hinfo, rfl, rfl⟩

theorem Quiet.trans (h : Quiet m m') (h' : Quiet m' m'') : Quiet m m'' := by
  intro me face info'' hinfo
  obtain ⟨info', hinfo', hrtt', hn'⟩ := h' me face info'' hinfo
  obtain ⟨info, hinfo, hrtt, hn⟩ := h me face info' hinfo'
  exact ⟨info, hinfo, hrtt'.trans hrtt, hn'.trans hn⟩

theorem quiet_insertStrategyInfo (m : AsfMeasurements) (me : Name) : Quiet m (m.insertStrategyInfo me) := by
  unfold AsfMeasurements.insertStrategyInfo
  split
  · exact .of_infos rfl
  · intro me' face info' hinfo
    by_cases hme : me' = me
    · subst hme
      simp at hinfo
    · dsimp only at hinfo
      rw [update_of_ne hme] at hinfo
      exact ⟨info', hinfo, rfl, rfl⟩

theorem quiet_modify {f : NamespaceInfo → NamespaceInfo} (hf : ∀ ns, (f ns).fiMap = ns.fiMap) (m : AsfMeasurements) (me : Name) :
    Quiet m (m.modify me f) := by
  intro me' face info' hinfo
  unfold AsfMeasurements.modify at hinfo
  dsimp only at hinfo
  by_cases hme : me' = me
  · subst hme
    rw [update_self, hf] at hinfo
    exact ⟨info', hinfo, rfl, rfl⟩
  · rw [update_of_ne hme] at hinfo
    exact ⟨info', hinfo, rfl, rfl⟩

theorem quiet_getNamespaceInfo (m : AsfMeasurements) (strategy : AsfStrategy) (name : Name) :
    Quiet m (m.getNamespaceInfo strategy name).1 := by
  unfold AsfMeasurements.getNamespaceInfo
  split
  · exact .of_infos rfl
  · exact quiet_insertStrategyInfo m _

theorem infos_findPart {n prefixLen : ℕ} {r : AsfMeasurements × Name}
    (h : AsfMeasurements.findPart strategy name n prefixLen m = some r) : r.1.infos = m.infos := by
  induction n generalizing prefixLen m with
  | zero => cases h
  | succ n ih =>
    unfold AsfMeasurements.findPart at h
    split at h
    · next m₁ me hget =>
      obtain rfl := Option.some.inj h
      exact congrArg (fun r => r.1.infos) hget.symm
    · next m₁ hget => exact (ih h).trans (congrArg (fun r => r.1.infos) hget.symm)

variable {fibEntry : FibEntry}

theorem quiet_getOrCreateNamespaceInfo {r : AsfMeasurements × Name}
    (h : m.getOrCreateNamespaceInfo strategy fibEntry name = some r) : Quiet m r.1 := by
  obtain ⟨⟨m₁, me⟩, hfib, hrest⟩ := Option.bind_eq_some_iff.1 h
  obtain ⟨tables, -, heq⟩ := Option.map_eq_some_iff.1 hfib
  have hm₁ : m₁.infos = m.infos := congrArg (fun r => r.1.infos) heq.symm
  cases me with
  | some me =>
    obtain rfl := Option.some.inj hrest
    exact (Quiet.of_infos hm₁).trans (quiet_insertStrategyInfo m₁ me)
  | none =>
    obtain ⟨r, hpart, rfl⟩ := Option.map_eq_some_iff.1 hrest
    exact (Quiet.of_infos ((infos_findPart hpart).trans hm₁)).trans (quiet_insertStrategyInfo r.1 r.2)

theorem fiMap_setFaceInfo (m : AsfMeasurements) (me me' : Name) (face face' : FaceId) (info : Option FaceInfo) :
    ((m.setFaceInfo me face info).infos me').fiMap face' =
      if me' = me ∧ face' = face then info else (m.infos me').fiMap face' := by
  unfold AsfMeasurements.setFaceInfo AsfMeasurements.modify
  by_cases hme : me' = me
  · subst hme
    by_cases hface : face' = face
    · subst hface
      simp
    · simp [hface]
  · simp [hme]

theorem quiet_setFaceInfo {info info' : FaceInfo} (hinfo : (m.infos me).fiMap face = some info)
    (hrtt : info'.lastRtt = info.lastRtt) (hn : info'.nTimeouts = info.nTimeouts) :
    Quiet m (m.setFaceInfo me face (some info')) := by
  intro me' face' info'' h
  rw [fiMap_setFaceInfo] at h
  split at h
  · next hsame =>
    obtain ⟨rfl, rfl⟩ := hsame
    obtain rfl := Option.some.inj h
    exact ⟨info, hinfo, hrtt, hn⟩
  · exact ⟨info'', h, rfl, rfl⟩

theorem quiet_expire (m : AsfMeasurements) (me : Name) (face : FaceId) : Quiet m (m.setFaceInfo me face none) := by
  intro me' face' info' h
  rw [fiMap_setFaceInfo] at h
  split at h
  · cases h
  · exact ⟨info', h, rfl, rfl⟩

theorem quiet_probeEvent (m : AsfMeasurements) (strategy : AsfStrategy) (name : Name) : Quiet m (m.probeEvent strategy name) := by
  have hlookup := quiet_getNamespaceInfo m strategy name
  unfold AsfMeasurements.probeEvent
  split
  · next hget => rwa [hget] at hlookup
  · next hget =>
    rw [hget] at hlookup
    apply hlookup.trans
    apply quiet_modify
    intro _
    rfl

theorem quiet_isProbingNeeded {r : AsfMeasurements × Option Name × Bool}
    (h : m.isProbingNeeded strategy fibEntry name = some r) : Quiet m r.1 := by
  obtain ⟨⟨m₁, me⟩, hget, rfl⟩ := Option.map_eq_some_iff.1 h
  have hquiet := quiet_getOrCreateNamespaceInfo hget
  dsimp only at hquiet ⊢
  split
  · exact hquiet
  · apply hquiet.trans
    dsimp only
    apply quiet_modify
    intro _
    rfl

theorem quiet_afterForwardingProbe {r : AsfMeasurements × Name}
    (h : m.afterForwardingProbe strategy fibEntry name = some r) : Quiet m r.1 := by
  obtain ⟨⟨m₁, me⟩, hget, rfl⟩ := Option.map_eq_some_iff.1 h
  apply (quiet_getOrCreateNamespaceInfo hget).trans
  dsimp only
  apply quiet_modify
  intro _
  rfl

theorem quiet_lookupFace (s : AsfState) (strategy : AsfStrategy) (name : Name) (face : FaceId) :
    Quiet s.measurements (s.lookupFace strategy name face).1 := by
  have hlookup := quiet_getNamespaceInfo s.measurements strategy name
  unfold lookupFace
  split
  · next hget => rwa [hget] at hlookup
  · next hget => rwa [hget] at hlookup

theorem fiMap_of_lookupFace {s : AsfState} {info : FaceInfo} (h : s.lookupFace strategy name face = (m, some (me, info))) :
    (m.infos me).fiMap face = some info := by
  unfold lookupFace at h
  split at h
  · cases h
  · obtain ⟨rfl, hfound⟩ := Prod.mk.inj h
    obtain ⟨info', hinfo, heq⟩ := Option.map_eq_some_iff.1 hfound
    obtain ⟨rfl, rfl⟩ := Prod.mk.inj heq
    exact hinfo

theorem fiMap_of_faceInfo {info : FaceInfo} (h : m.faceInfo me face = some info) : (m.infos me).fiMap face = some info := by
  unfold AsfMeasurements.faceInfo AsfMeasurements.namespaceInfo at h
  split at h
  · exact h
  · cases h

end Quiet

/-! ### The invariant -/

section Inv

variable {s s' : AsfState} {m m' : AsfMeasurements} {log : List ((Name × FaceId) × FaceEvent)} {me : Name} {face : FaceId}
  {info : FaceInfo} {event : FaceEvent}

theorem Inv.quiet (h : Inv ⟨m, log⟩) (hquiet : Quiet m m') : Inv ⟨m', log⟩ := by
  intro me face info' hinfo' hrtt'
  obtain ⟨info, hinfo, hrtt, hn⟩ := hquiet me face info' hinfo'
  rw [hn]
  exact h me face info hinfo (hrtt ▸ hrtt')

theorem Inv.set (h : Inv ⟨m, log⟩)
    (hinfo : info.lastRtt ≠ FaceInfo.RTT_TIMEOUT → info.nTimeouts ≤ counted (me, face) (((me, face), event) :: log)) :
    Inv ⟨m.setFaceInfo me face (some info), ((me, face), event) :: log⟩ := by
  intro me' face' info' hinfo' hrtt'
  rw [fiMap_setFaceInfo] at hinfo'
  split at hinfo'
  · next hsame =>
    obtain ⟨rfl, rfl⟩ := hsame
    obtain rfl := Option.some.inj hinfo'
    exact hinfo hrtt'
  · next hother =>
    have hne : (me, face) ≠ (me', face') := by
      rintro heq
      exact hother ⟨(congrArg Prod.fst heq).symm, (congrArg Prod.snd heq).symm⟩
    have hrest := h me' face' info' hinfo' hrtt'
    simp only [counted, if_neg hne]
    exact hrest

theorem Inv.onTimeoutOrNack (h : s.Inv) (strategy : AsfStrategy) (name : Name) (face : FaceId) (isNack : Bool) :
    (s.onTimeoutOrNack strategy name face isNack).Inv := by
  have hlookup := h.quiet (quiet_lookupFace s strategy name face)
  unfold AsfState.onTimeoutOrNack
  split
  · next hfound => rwa [hfound] at hlookup
  · next m me info hfound =>
    rw [hfound] at hlookup
    have hinfo := fiMap_of_lookupFace hfound
    apply hlookup.set
    intro hrtt
    split at hrtt
    · next hignored =>
      rw [if_pos hignored]
      obtain rfl : isNack = false := by simpa using (Bool.and_eq_true_iff.1 hignored).2
      rw [FaceInfo.cancelTimeout_lastRtt] at hrtt
      have hcount := hlookup me face info hinfo hrtt
      simp only [FaceInfo.cancelTimeout_nTimeouts, counted, if_true, Bool.false_eq_true, if_false]
      dsimp only at hcount
      have hmod := Nat.mod_le (info.nTimeouts + 1) (2 ^ 64)
      omega
    · simp [FaceInfo.recordTimeout] at hrtt

theorem Inv.beforeSatisfyInterest (h : s.Inv) {strategy : AsfStrategy} {pitName dataName : Name} {face : FaceId}
    {rtt : Option ℕ} (hfresh : s.RecordsFresh (.beforeSatisfyInterest strategy pitName dataName face rtt)) :
    (s.beforeSatisfyInterest strategy pitName dataName face rtt).Inv := by
  have hlookup := h.quiet (quiet_lookupFace s strategy pitName face)
  unfold AsfState.beforeSatisfyInterest
  split
  · next hfound => rwa [hfound] at hlookup
  · next m me info hfound =>
    rw [hfound] at hlookup
    have hinfo := fiMap_of_lookupFace hfound
    cases rtt with
    | none => exact hlookup.quiet (quiet_setFaceInfo hinfo (info.cancelTimeout_lastRtt _) (info.cancelTimeout_nTimeouts _))
    | some rtt =>
      apply hlookup.set
      intro _
      have hzero : info.nTimeouts = 0 := hfresh info (by rw [recordedFace, hfound]; rfl)
      simp [FaceInfo.recordRtt, hzero]

theorem Inv.forwardInterest (h : s.Inv) {strategy : AsfStrategy} {fibEntry : FibEntry} {name : Name} {face : FaceId}
    (hstep : s.forwardInterest strategy fibEntry name face = some s') : s'.Inv := by
  obtain ⟨⟨m, me⟩, hget, hrest⟩ := Option.bind_eq_some_iff.1 hstep
  have hlookup := h.quiet (quiet_getOrCreateNamespaceInfo hget)
  obtain ⟨info, hinfo, hrest⟩ := Option.bind_eq_some_iff.1 hrest
  set s₁ : AsfState :=
    match (m.infos me).fiMap face with
    | some _ => { s with measurements := m }
    | none => { measurements := m.setFaceInfo me face (some {}), log := ((me, face), .created) :: s.log } with hs₁
  have hcreated : s₁.Inv := by
    rw [hs₁]
    split
    · exact hlookup
    · exact hlookup.set fun _ => Nat.zero_le _
  split at hrest
  · obtain rfl := Option.some.inj hrest
    exact hcreated
  · obtain ⟨info', hscheduled, rfl⟩ := Option.map_eq_some_iff.1 hrest
    unfold FaceInfo.scheduleTimeout at hscheduled
    split at hscheduled
    · cases hscheduled
    · obtain rfl := Option.some.inj hscheduled
      exact hcreated.quiet (quiet_setFaceInfo hinfo rfl rfl)

theorem Inv.timeout (h : s.Inv) (hstep : s.timeout me face = some s') : s'.Inv := by
  obtain ⟨info, hinfo, hrest⟩ := Option.bind_eq_some_iff.1 hstep
  obtain ⟨event, -, rfl⟩ := Option.map_eq_some_iff.1 hrest
  have hquiet : Quiet s.measurements (s.measurements.setFaceInfo me face (some { info with timeoutEvent := none })) :=
    quiet_setFaceInfo (fiMap_of_faceInfo hinfo) rfl rfl
  exact (h.quiet hquiet).onTimeoutOrNack event.strategy event.name event.faceId false

/-- **Every step keeps the counts**, if Data is recorded while no timeout is counted. -/
theorem Inv.step {S : NextHopSort} {registry : StrategyRegistry} {op : AsfOp} (h : s.Inv) (hfresh : s.RecordsFresh op)
    (hstep : s.step S registry op = some s') : s'.Inv := by
  cases op with
  | table op =>
    simp only [AsfState.step] at hstep
    split at hstep
    · obtain ⟨tables, -, rfl⟩ := Option.map_eq_some_iff.1 hstep
      exact h.quiet (.of_infos rfl)
    · cases hstep
  | expire me face =>
    obtain rfl := Option.some.inj hstep
    exact h.quiet (quiet_expire _ me face)
  | getFaceInfo strategy fibEntry name =>
    obtain ⟨r, hget, rfl⟩ := Option.map_eq_some_iff.1 hstep
    exact h.quiet (quiet_getOrCreateNamespaceInfo hget)
  | isProbingNeeded strategy fibEntry name =>
    obtain ⟨r, hneeded, rfl⟩ := Option.map_eq_some_iff.1 hstep
    exact h.quiet (quiet_isProbingNeeded hneeded)
  | afterForwardingProbe strategy fibEntry name =>
    obtain ⟨r, hafter, rfl⟩ := Option.map_eq_some_iff.1 hstep
    exact h.quiet (quiet_afterForwardingProbe hafter)
  | probeEvent strategy fibPrefix =>
    obtain rfl := Option.some.inj hstep
    exact h.quiet (quiet_probeEvent _ strategy fibPrefix)
  | forwardInterest strategy fibEntry name face => exact h.forwardInterest hstep
  | beforeSatisfyInterest strategy pitName dataName face rtt =>
    obtain rfl := Option.some.inj hstep
    exact h.beforeSatisfyInterest hfresh
  | afterReceiveNack strategy pitName face =>
    obtain rfl := Option.some.inj hstep
    exact h.onTimeoutOrNack strategy pitName face true
  | timeout me face => exact h.timeout hstep

end Inv

section Demotions

variable {s s' : AsfState}

/-- A face that is demoted by `onTimeoutOrNack` is the one that is counted, and it is counted often enough. -/
theorem Inv.demotesLate_onTimeout (h : s.Inv) {strategy : AsfStrategy} {name me : Name} {face face' : FaceId}
    {info info' : FaceInfo} (hinfo : (s.measurements.infos me).fiMap face' = some info)
    (hrtt : info.lastRtt ≠ FaceInfo.RTT_TIMEOUT)
    (hinfo' : ((s.onTimeoutOrNack strategy name face false).measurements.infos me).fiMap face' = some info')
    (hrtt' : info'.lastRtt = FaceInfo.RTT_TIMEOUT) :
    strategy.nMaxTimeouts ≤ counted (me, face') (s.onTimeoutOrNack strategy name face false).log := by
  have hquiet := quiet_lookupFace s strategy name face
  have hlookup := h.quiet hquiet
  unfold AsfState.onTimeoutOrNack at hinfo' ⊢
  split at hinfo'
  · next m hfound =>
    rw [hfound] at hquiet
    obtain ⟨info₀, hinfo₀, hrtt₀, -⟩ := hquiet me face' info' hinfo'
    obtain rfl := Option.some.inj (hinfo.symm.trans hinfo₀)
    exact absurd (hrtt₀.symm.trans hrtt') hrtt
  · next m me₁ info₁ hfound =>
    rw [hfound] at hquiet hlookup
    dsimp only at hinfo'
    rw [fiMap_setFaceInfo] at hinfo'
    split at hinfo'
    · next hsame =>
      obtain ⟨rfl, rfl⟩ := hsame
      have hinfo₁ := fiMap_of_lookupFace hfound
      obtain ⟨info₀, hinfo₀, hrtt₀, -⟩ := hquiet me face' info₁ hinfo₁
      obtain rfl := Option.some.inj (hinfo.symm.trans hinfo₀)
      have hcount := hlookup me face' info₁ hinfo₁ (hrtt₀ ▸ hrtt)
      obtain rfl := Option.some.inj hinfo'
      split at hrtt'
      · rw [FaceInfo.cancelTimeout_lastRtt] at hrtt'
        exact absurd (hrtt₀.symm.trans hrtt') hrtt
      · next hlate =>
        simp only [Bool.not_false, Bool.and_true, decide_eq_true_eq, not_lt] at hlate
        have hmod := Nat.mod_le (info₁.nTimeouts + 1) (2 ^ 64)
        simp only [counted, if_true, Bool.false_eq_true, if_false]
        dsimp only at hcount
        omega
    · obtain ⟨info₀, hinfo₀, hrtt₀, -⟩ := hquiet me face' info' hinfo'
      obtain rfl := Option.some.inj (hinfo.symm.trans hinfo₀)
      exact absurd (hrtt₀.symm.trans hrtt') hrtt

theorem Inv.demotesLate {S : NextHopSort} {registry : StrategyRegistry} {op : AsfOp} (h : s.Inv)
    (hstep : s.step S registry op = some s') : s.DemotesLate s' op := by
  intro event me face info info' hfired hinfo hrtt hinfo' hrtt'
  cases op with
  | timeout me₀ face₀ =>
    obtain ⟨info₀, hinfo₀, hrest⟩ := Option.bind_eq_some_iff.1 hstep
    obtain ⟨event₀, hevent₀, rfl⟩ := Option.map_eq_some_iff.1 hrest
    obtain rfl : event₀ = event := by
      rw [firedEvent, hinfo₀, Option.bind_some, hevent₀] at hfired
      exact Option.some.inj hfired
    have hquiet : Quiet s.measurements (s.measurements.setFaceInfo me₀ face₀ (some { info₀ with timeoutEvent := none })) :=
      quiet_setFaceInfo (fiMap_of_faceInfo hinfo₀) rfl rfl
    obtain ⟨info₁, hinfo₁, hrtt₁⟩ : ∃ info₁, ((s.measurements.setFaceInfo me₀ face₀
        (some { info₀ with timeoutEvent := none })).infos me).fiMap face = some info₁ ∧ info₁.lastRtt = info.lastRtt := by
      rw [fiMap_setFaceInfo]
      split
      · next hsame =>
        obtain ⟨rfl, rfl⟩ := hsame
        obtain rfl := Option.some.inj (hinfo.symm.trans hinfo₀)
        exact ⟨_, rfl, rfl⟩
      · exact ⟨info, fiMap_of_faceInfo hinfo, rfl⟩
    exact (h.quiet hquiet).demotesLate_onTimeout hinfo₁ (hrtt₁ ▸ hrtt) (fiMap_of_faceInfo hinfo') hrtt'
  | _ => cases hfired

end Demotions

/-! ### Runs -/

theorem run_concat (S : NextHopSort) (registry : StrategyRegistry) (tables : Tables) (ops : List AsfOp) (op : AsfOp) :
    run S registry tables (ops ++ [op]) = (run S registry tables ops).bind fun s => s.step S registry op := by
  unfold run
  rw [List.foldlM_append]
  refine Option.bind_congr fun s _ => ?_
  rw [List.foldlM_cons]
  cases s.step S registry op <;> rfl

def RunRecordsFresh (S : NextHopSort) (registry : StrategyRegistry) (tables : Tables) (ops : List AsfOp) : Prop :=
  ∀ pre op, pre ++ [op] <+: ops → ∀ s, run S registry tables pre = some s → s.RecordsFresh op

theorem run_inv {S : NextHopSort} {registry : StrategyRegistry} {tables : Tables} {ops : List AsfOp}
    (hfresh : RunRecordsFresh S registry tables ops) : ∀ pre, pre <+: ops → ∀ s, run S registry tables pre = some s → s.Inv := by
  intro pre
  induction pre using List.reverseRecOn with
  | nil =>
    intro _ s hrun
    obtain rfl := Option.some.inj hrun
    intro me face info hinfo
    cases hinfo
  | append_singleton pre op ih =>
    intro hpre s hrun
    rw [run_concat] at hrun
    obtain ⟨s₀, hrun₀, hstep⟩ := Option.bind_eq_some_iff.1 hrun
    have hpre₀ := (List.prefix_append pre [op]).trans hpre
    exact (ih hpre₀ s₀ hrun₀).step (hfresh pre op hpre s₀ hrun₀) hstep

/-- **In a run where Data is recorded only while no timeout is counted**, every timeout that demotes a face comes after enough
timeouts. -/
theorem run_demotesLate {S : NextHopSort} {registry : StrategyRegistry} {tables : Tables} {ops : List AsfOp}
    (hfresh : RunRecordsFresh S registry tables ops) :
    ∀ pre op, pre ++ [op] <+: ops → ∀ s s', run S registry tables pre = some s →
      run S registry tables (pre ++ [op]) = some s' → s.DemotesLate s' op := by
  intro pre op hpre s s' hrun hrun'
  rw [run_concat, hrun, Option.bind_some] at hrun'
  exact (run_inv hfresh pre ((List.prefix_append pre [op]).trans hpre) s hrun).demotesLate hrun'

/-- Three Interests for `ndn:/A` to face 2, all of them without an answer. -/
def threeTimeouts : List AsfOp :=
  (List.replicate 3 [.forwardInterest ⟨[], 3⟩ AsfMeasurements.fibEntryA Tables.nameA 2, .timeout Tables.nameA 2]).flatten

def dataBetween : List AsfOp :=
  threeTimeouts.take 4 ++
    [.forwardInterest ⟨[], 3⟩ AsfMeasurements.fibEntryA Tables.nameA 2,
      .beforeSatisfyInterest ⟨[], 3⟩ Tables.nameA Tables.nameA 2 (some 10)] ++
      threeTimeouts.drop 4

theorem runRecordsFresh_of_no_data {S : NextHopSort} {registry : StrategyRegistry} {tables : Tables} {ops : List AsfOp}
    (h : ∀ s : AsfState, ∀ op ∈ ops, s.recordedFace op = none) : RunRecordsFresh S registry tables ops := by
  intro pre op hpre s _ info hinfo
  rw [h s op (hpre.subset (by simp))] at hinfo
  cases hinfo

/-- The third timeout demotes the face. -/
theorem run_demotesLate_three :
    ((run insertionSort freeRegistry AsfMeasurements.probingTables threeTimeouts).bind fun s =>
        (s.measurements.faceInfo Tables.nameA 2).map FaceInfo.lastRtt) = some FaceInfo.RTT_TIMEOUT ∧
      ∀ pre op, pre ++ [op] <+: threeTimeouts → ∀ s s', run insertionSort freeRegistry AsfMeasurements.probingTables pre = some s →
        run insertionSort freeRegistry AsfMeasurements.probingTables (pre ++ [op]) = some s' → s.DemotesLate s' op := by
  refine ⟨by decide, run_demotesLate (runRecordsFresh_of_no_data fun s op hop => ?_)⟩
  have hcases : op = .forwardInterest ⟨[], 3⟩ AsfMeasurements.fibEntryA Tables.nameA 2 ∨ op = .timeout Tables.nameA 2 := by
    simp only [threeTimeouts, List.replicate, List.flatten_cons, List.flatten_nil, List.cons_append, List.nil_append,
      List.mem_cons, List.not_mem_nil] at hop
    tauto
  rcases hcases with rfl | rfl <;> rfl

/-- With Data behind the second timeout, the next one demotes the face too: it is the first one since then. -/
theorem not_demotesLate :
    ((run insertionSort freeRegistry AsfMeasurements.probingTables (dataBetween.take 7)).bind fun s =>
        (s.measurements.faceInfo Tables.nameA 2).map fun info => (info.lastRtt, counted (Tables.nameA, 2) s.log)) = some (10, 0) ∧
      dataBetween.drop 7 = [.timeout Tables.nameA 2] ∧
      ((run insertionSort freeRegistry AsfMeasurements.probingTables dataBetween).bind fun s =>
        (s.measurements.faceInfo Tables.nameA 2).map fun info => (info.lastRtt, counted (Tables.nameA, 2) s.log)) =
          some (FaceInfo.RTT_TIMEOUT, 1) := by
  refine ⟨by decide, rfl, by decide⟩

end AsfState

end Ns3Ndn
