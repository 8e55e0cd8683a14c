import Ns3Ndn.Fw.Pit

/-!
# The forwarding pipelines

`NFD/daemon/fw/forwarder.cpp` and the parts of `strategy.cpp` that the pipelines run. The strategy
is a record of its virtual functions. The Content Store, the Dead Nonce List and the policy for
unsolicited Data are parameters: the pipelines only call them.

Signals, logging and the counters of packets are left out. What is sent on a face is kept in `sent`,
and `finalized` records the calls of `onInterestFinalize`. An expiry event of the scheduler fires as
an event of its own, once it is due.

* `Event`, `step`, `run`: packets, timers, and changes of faces and of the FIB in any order.
-/

namespace Ns3Ndn

open OrdLib

/-- The tables that the pipelines only call. -/
structure Env (κ δ : Type) where
  csFind : κ → Interest → Option Data × κ
  csInsert : κ → Data → (isUnsolicited : Bool) → κ
  dnlHas : δ → Name → UInt32 → Bool
  dnlAdd : δ → Name → UInt32 → δ
  /-- `m_deadNonceList.getLifetime()`, in milliseconds. -/
  dnlLifetime : ℕ
  /-- Whether unsolicited Data is cached. -/
  decideUnsolicited : Face → Data → Bool
  defaultHopLimit : UInt8 := 0

inductive Sent where
  | interest (egress : FaceId) (interest : Interest)
  | data (egress : FaceId) (data : Data)
  | nack (egress : FaceId) (nack : Nack)
deriving DecidableEq

/-- An event of the scheduler that calls `onInterestFinalize` for a PIT entry. -/
structure ExpiryEvent where
  id : ℕ
  pitEntry : ℕ
  due : ℕ
deriving DecidableEq

/-- The state of a forwarder. `σ` is the state of its strategy, and `pitOrder` lists the PIT entries
as the name tree nodes do. -/
structure Forwarder (κ δ σ : Type) where
  now : ℕ := 0
  faces : FaceId → Option Face := fun _ => none
  lastFaceId : FaceId := 255
  fib : Fib := fun _ => none
  pit : Pit := OrdMap.empty
  pitOrder : List ℕ := []
  nextPitEntry : ℕ := 0
  expiryEvents : List ExpiryEvent := []
  nextEvent : ℕ := 0
  nSatisfiedInterests : ℕ := 0
  nUnsatisfiedInterests : ℕ := 0
  networkRegionTable : List Name := []
  cs : κ
  deadNonceList : δ
  strategy : σ
  sent : List Sent := []
  finalized : List (ℕ × Bool) := []

/-- The virtual functions of a strategy. A PIT entry is passed by its address. -/
structure Strategy (κ δ σ : Type) where
  afterReceiveInterest : Forwarder κ δ σ → Interest → FaceId → Face → ℕ → Forwarder κ δ σ
  beforeSatisfyInterest : Forwarder κ δ σ → Data → FaceId → ℕ → Forwarder κ δ σ := fun s _ _ _ => s
  afterReceiveData : Forwarder κ δ σ → Data → FaceId → ℕ → Forwarder κ δ σ
  afterReceiveNack : Forwarder κ δ σ → Nack → FaceId → ℕ → Forwarder κ δ σ := fun s _ _ _ => s

namespace Forwarder

variable {κ δ σ : Type}

section Edits

variable (s : Forwarder κ δ σ)

def modifyEntry (id : ℕ) (f : PitEntry → PitEntry) : Forwarder κ δ σ :=
  { s with pit := s.pit.modify id f }

def cancelExpiry (id : ℕ) : List ExpiryEvent :=
  s.expiryEvents.filter fun event => (s.pit.find? id).bind PitEntry.expiryTimer ≠ some event.id

def setExpiryTimer (id : ℕ) (duration : ℕ) : Forwarder κ δ σ :=
  { s with
    expiryEvents := s.cancelExpiry id ++ [⟨s.nextEvent, id, s.now + duration * ms⟩]
    nextEvent := s.nextEvent + 1
    pit := s.pit.modify id fun e => { e with expiryTimer := some s.nextEvent } }

def pitInsert (interest : Interest) : Forwarder κ δ σ × ℕ × PitEntry :=
  match s.pit.toList.find? fun (_, e) => e.canMatch interest with
  | some (id, e) => (s, id, e)
  | none =>
    let e : PitEntry := { interest }
    ({ s with
      pit := s.pit.insert s.nextPitEntry e
      pitOrder := s.pitOrder ++ [s.nextPitEntry]
      nextPitEntry := s.nextPitEntry + 1 }, s.nextPitEntry, e)

def send (packet : Sent) : Forwarder κ δ σ := { s with sent := s.sent ++ [packet] }

end Edits

section Pipelines

variable (E : Env κ δ) (S : Strategy κ δ σ) (s : Forwarder κ δ σ)

def insertDeadNonceList (e : PitEntry) (upstream : Option FaceId) : Forwarder κ δ σ :=
  let needDnl := ! e.isSatisfied || e.interest.mustBeFresh && decide (e.dataFreshnessPeriod < E.dnlLifetime)
  let records := match upstream with
    | none => e.outRecords
    | some face => (e.getOutRecord face).toList
  if needDnl then
    { s with
      deadNonceList := records.foldl (fun dnl r => E.dnlAdd dnl e.interest.name r.lastNonce)
        s.deadNonceList }
  else s

/-! ### Interests -/

/-- `onInterestLoop`: a Nack on a point-to-point face. -/
def onInterestLoop (interest : Interest) (ingress : FaceId) (face : Face) : Forwarder κ δ σ :=
  if face.linkType ≠ .pointToPoint then s else s.send (.nack ingress ⟨interest, .duplicate⟩)

def onOutgoingInterest (interest : Interest) (egress : FaceId) (face : Face) (id : ℕ) :
    Forwarder κ δ σ × Bool :=
  if interest.hopLimit = some 0 ∧ face.scope = .nonLocal then (s, false)
  else
    ((s.modifyEntry id fun e => e.insertOrUpdateOutRecord s.now egress interest).send
      (.interest egress interest), true)

/-- `Strategy::sendInterest`: the PIT token is not passed on. -/
def sendInterest (interest : Interest) (egress : FaceId) (face : Face) (id : ℕ) :
    Forwarder κ δ σ × Bool :=
  s.onOutgoingInterest { interest with pitToken := none } egress face id

/-- `Strategy::rejectPendingInterest`. -/
def rejectPendingInterest (id : ℕ) : Forwarder κ δ σ := s.setExpiryTimer id 0

def onOutgoingData (data : Data) (egress : FaceId) : Forwarder κ δ σ × Bool :=
  match s.faces egress with
  | none => (s, false)
  | some face =>
    if face.scope = .nonLocal ∧ LOCALHOST.isPrefixOf data.name then (s, false)
    else (s.send (.data egress data), true)

/-- `Strategy::sendData`. -/
def sendData (data : Data) (egress : FaceId) (id : ℕ) : Forwarder κ δ σ :=
  match s.pit.find? id with
  | none => s
  | some e =>
    let pitToken := (e.getInRecord egress).bind fun r => r.interest.pitToken
    let s := s.modifyEntry id fun e => e.deleteInRecord egress
    match pitToken with
    | some token => (s.onOutgoingData { data with pitToken := some token } egress).1
    | none =>
      let s := (s.onOutgoingData data egress).1
      if (e.deleteInRecord egress).inRecords.isEmpty then
        (s.setExpiryTimer id 0).modifyEntry id fun e => { e with isSatisfied := true }
      else s

/-- `onContentStoreHit`, with `Strategy::afterContentStoreHit`. -/
def onContentStoreHit (interest : Interest) (ingress : FaceId) (id : ℕ) (data : Data) :
    Forwarder κ δ σ :=
  let data := { data with pitToken := interest.pitToken }
  let s := s.modifyEntry id fun e =>
    { e with isSatisfied := true, dataFreshnessPeriod := data.freshnessPeriod }
  let s := s.setExpiryTimer id 0
  -- FACEID_CONTENT_STORE
  let s := S.beforeSatisfyInterest s data 254 id
  s.sendData data ingress id

/-- `onContentStoreMiss` up to the choice of the next hop: the in-record and the expiry timer. -/
def insertInRecord (interest : Interest) (ingress : FaceId) (id : ℕ) : Forwarder κ δ σ :=
  let s := s.modifyEntry id fun e => e.insertOrUpdateInRecord s.now ingress interest
  match s.pit.find? id with
  | none => s
  | some e =>
    let lastExpiry := (e.inRecords.map InRecord.expiry).foldl max 0
    s.setExpiryTimer id ((lastExpiry - s.now) / ms)

/-- What `onIncomingInterest` comes to: it is done, or the Content Store has the Data, or the
Interest goes on as a miss. -/
inductive Incoming (κ δ σ : Type) where
  | done (s : Forwarder κ δ σ)
  | hit (s : Forwarder κ δ σ) (interest : Interest) (id : ℕ) (data : Data)
  | miss (s : Forwarder κ δ σ) (interest : Interest) (id : ℕ)

/-- `NetworkRegionTable::isInProducerRegion`. -/
def isInProducerRegion (forwardingHint : List Name) : Bool :=
  s.networkRegionTable.any fun region => forwardingHint.any (·.isPrefixOf region)

def stripForwardingHint (interest : Interest) : Interest :=
  if s.isInProducerRegion interest.forwardingHint then { interest with forwardingHint := [] }
  else interest

/-- `onIncomingInterest` from the PIT on, up to the Content Store. -/
def lookupTables (interest : Interest) (ingress : FaceId) (face : Face) : Incoming κ δ σ :=
  let (s, id, e) := s.pitInsert interest
  let dnw := findDuplicateNonce e interest.nonce ingress
  -- on a point-to-point face a repetition from the same face is no loop
  if dnw.isAny && ! (face.linkType == .pointToPoint && dnw.inSame) then
    .done (s.onInterestLoop interest ingress face)
  else if e.inRecords.isEmpty then
    match E.csFind s.cs interest with
    | (some data, cs) => .hit { s with cs } interest id data
    | (none, cs) => .miss { s with cs } interest id
  else .miss s interest id

/-- `onIncomingInterest` up to the Content Store. -/
def incomingInterest (interest : Interest) (ingress : FaceId) (face : Face) : Incoming κ δ σ :=
  if interest.hopLimit = some 0 then .done s
  else
    let interest := { interest with hopLimit := interest.hopLimit.map (· - 1) }
    if face.scope = .nonLocal ∧ LOCALHOST.isPrefixOf interest.name then .done s
    else if E.dnlHas s.deadNonceList interest.name interest.nonce then
      .done (s.onInterestLoop interest ingress face)
    else s.lookupTables E (s.stripForwardingHint interest) ingress face

/-- `onContentStoreMiss` up to the strategy: `none` when the Interest has a NextHopFaceId, else the
state and the Interest with which the strategy is called. -/
def contentStoreMiss (interest : Interest) (ingress : FaceId) (id : ℕ) :
    Forwarder κ δ σ × Interest × Option FaceId :=
  let interest :=
    if 0 < E.defaultHopLimit ∧ interest.hopLimit = none then
      { interest with hopLimit := some E.defaultHopLimit }
    else interest
  (s.insertInRecord interest ingress id, interest, interest.nextHopFaceId)

/-- `onContentStoreMiss`. -/
def onContentStoreMiss (interest : Interest) (ingress : FaceId) (face : Face) (id : ℕ) :
    Forwarder κ δ σ :=
  match s.contentStoreMiss E interest ingress id with
  | (s, interest, some nextHop) =>
    match s.faces nextHop with
    | none => s
    | some nextHopFace => (s.onOutgoingInterest interest nextHop nextHopFace id).1
  | (s, interest, none) => S.afterReceiveInterest s interest ingress face id

/-- `onIncomingInterest`. -/
def onIncomingInterest (interest : Interest) (ingress : FaceId) (face : Face) : Forwarder κ δ σ :=
  match s.incomingInterest E interest ingress face with
  | .done s => s
  | .hit s interest id data => s.onContentStoreHit S interest ingress id data
  | .miss s interest id => s.onContentStoreMiss E S interest ingress face id

/-- `onInterestFinalize`. -/
def onInterestFinalize (id : ℕ) : Forwarder κ δ σ :=
  match s.pit.find? id with
  | none => s
  | some e =>
    { s.insertDeadNonceList E e none with
      nSatisfiedInterests := if e.isSatisfied then s.nSatisfiedInterests + 1 else s.nSatisfiedInterests
      nUnsatisfiedInterests :=
        if e.isSatisfied then s.nUnsatisfiedInterests else s.nUnsatisfiedInterests + 1
      expiryEvents := s.cancelExpiry id
      pitOrder := s.pit.eraseFromNode s.pitOrder id
      pit := s.pit.erase id
      finalized := s.finalized ++ [(id, e.isSatisfied)] }

/-! ### Data -/

/-- `Strategy::satisfyInterest`: the downstreams of the entry, with endpoint 0, join those of the
entries before; there are no unsatisfied ones. -/
def satisfyInterest (id : ℕ) (e : PitEntry) (ingress : FaceId) (data : Data)
    (satisfied : List (FaceId × ℕ)) :
    Forwarder κ δ σ × List (FaceId × ℕ) × List (FaceId × ℕ) :=
  let downstreams := (e.inRecords.filter fun r => s.now < r.expiry).map fun r => (r.face, 0)
  (S.beforeSatisfyInterest s data ingress id, satisfied ∪ downstreams, [])

/-- The loop of `onIncomingData` over the matching entries. -/
def satisfyEntries (data : Data) (ingress : FaceId) :
    Forwarder κ δ σ → (satisfied : List (FaceId × ℕ)) → (unsatisfied : List ((FaceId × ℕ) × ℕ)) →
    (entries : List ℕ) → Forwarder κ δ σ × List (FaceId × ℕ) × List ((FaceId × ℕ) × ℕ)
  | s, satisfied, unsatisfied, [] => (s, satisfied, unsatisfied)
  | s, satisfied, unsatisfied, id :: entries =>
    match s.pit.find? id with
    | none => satisfyEntries data ingress s satisfied unsatisfied entries
    | some e =>
      let (s, satisfied, notSatisfied) := s.satisfyInterest S id e ingress data satisfied
      let s :=
        if notSatisfied.isEmpty then
          (s.setExpiryTimer id 0).modifyEntry id fun e => { e with isSatisfied := true }
        else s
      let s := match s.pit.find? id with
        | none => s
        | some e => s.insertDeadNonceList E e (some ingress)
      let s := s.modifyEntry id fun e =>
        let e := { e with dataFreshnessPeriod := data.freshnessPeriod }
        (satisfied.foldl (fun e d => e.deleteInRecord d.1) e).deleteOutRecord ingress
      satisfyEntries data ingress s satisfied (unsatisfied ++ notSatisfied.map (·, id)) entries

/-- The loop of `onIncomingData` over the unsatisfied entries. -/
def closeUnsatisfied (satisfied : List (FaceId × ℕ)) :
    Forwarder κ δ σ → List ((FaceId × ℕ) × ℕ) → Forwarder κ δ σ
  | s, [] => s
  | s, (downstream, id) :: rest =>
    if downstream ∈ satisfied then
      let s := s.modifyEntry id fun e => e.deleteInRecord downstream.1
      let s := match s.pit.find? id with
        | none => s
        | some e =>
          if e.inRecords.isEmpty then
            (s.setExpiryTimer id 0).modifyEntry id fun e => { e with isSatisfied := true }
          else s
      closeUnsatisfied satisfied s rest
    else closeUnsatisfied satisfied s rest

/-- `onDataUnsolicited`. -/
def onDataUnsolicited (data : Data) (face : Face) : Forwarder κ δ σ :=
  if E.decideUnsolicited face data then { s with cs := E.csInsert s.cs data true } else s

/-- The loop of `onIncomingData` over the pending downstreams. -/
def sendDownstreams (data : Data) (ingress : FaceId) (face : Face) (endpoint : ℕ) :
    Forwarder κ δ σ → (downstreams : List (FaceId × ℕ)) → Forwarder κ δ σ
  | s, [] => s
  | s, downstream :: downstreams =>
    if downstream = (ingress, endpoint) ∧ face.linkType ≠ .adHoc then
      sendDownstreams data ingress face endpoint s downstreams
    else
      sendDownstreams data ingress face endpoint (s.onOutgoingData data downstream.1).1 downstreams

/-- `onIncomingData`. -/
def onIncomingData (data : Data) (ingress : FaceId) (face : Face) (endpoint : ℕ) :
    Forwarder κ δ σ :=
  if face.scope = .nonLocal ∧ LOCALHOST.isPrefixOf data.name then s
  else
    let entries := s.pit.findAllDataMatches s.pitOrder data
    if entries.isEmpty then s.onDataUnsolicited E data face
    else
      let s := { s with cs := E.csInsert s.cs data false }
      let (s, satisfied, unsatisfied) := satisfyEntries E S data ingress s [] [] entries
      let s := closeUnsatisfied satisfied s unsatisfied
      sendDownstreams data ingress face endpoint s satisfied

/-- The PIT entry for which `onIncomingNack` accepts a Nack: it has an out-record for the face with
the Nonce of the Nack. -/
def acceptsNack (nack : Nack) (ingress : FaceId) (face : Face) : Option ℕ :=
  if face.linkType ≠ .pointToPoint then none
  else
    match s.pit.toList.find? fun (_, e) => e.canMatch nack.interest with
    | none => none
    | some (id, e) =>
      match e.getOutRecord ingress with
      | none => none
      | some r => if nack.interest.nonce = r.lastNonce then some id else none

/-- `onIncomingNack`. -/
def onIncomingNack (nack : Nack) (ingress : FaceId) (face : Face) : Forwarder κ δ σ :=
  match s.acceptsNack nack ingress face with
  | none => s
  | some id =>
    let s := s.modifyEntry id fun e =>
      { e with
        outRecords := e.outRecords.replaceF fun r =>
          if r.face == ingress then some { r with incomingNack := some nack.reason } else none }
    let s := match s.pit.find? id with
      | none => s
      | some e => if hasPendingOutRecords s.now e then s else s.setExpiryTimer id 0
    S.afterReceiveNack s nack ingress id

/-- `cleanupOnFaceRemoval` and `FaceTable::remove`. -/
def removeFace (face : FaceId) : Forwarder κ δ σ :=
  { s with
    faces := Function.update s.faces face none
    fib := fun prefixName => s.fib.removeNextHop prefixName face prefixName
    pit := s.pit.toList.foldl (fun pit (id, _) =>
      pit.modify id fun e => (e.deleteInRecord face).deleteOutRecord face) s.pit }

/-- `FibManager::addNextHop`. -/
def addNextHop (prefixName : Name) (face : FaceId) (cost : ℕ) : Forwarder κ δ σ :=
  if 32 < prefixName.length then s
  else
    match s.faces face with
    | none => s
    | some _ =>
      let nextHops := Fib.addOrUpdateNextHop ((s.fib prefixName).getD []) face cost
      { s with fib := Function.update s.fib prefixName (some nextHops) }

end Pipelines

end Forwarder

/-! ## Runs -/

/-- What happens to a forwarder. -/
inductive FwEvent where
  | interest (ingress : FaceId) (interest : Interest)
  | data (ingress : FaceId) (endpoint : ℕ) (data : Data)
  | nack (ingress : FaceId) (nack : Nack)
  | elapse (duration : ℕ)
  | expire (event : ℕ)
  | addFace (face : Face)
  | removeFace (face : FaceId)
  | setState (face : FaceId) (state : TransportState)
  | addNextHop (prefixName : Name) (face : FaceId) (cost : ℕ)
  | removeNextHop (prefixName : Name) (face : FaceId)

def FwEvent.isPacket : FwEvent → Bool
  | .interest .. | .data .. | .nack .. => true
  | _ => false

namespace Forwarder

variable {κ δ σ : Type} (E : Env κ δ) (S : Strategy κ δ σ)

/-- One event. A packet comes in on a face of the face table, and an expiry event fires only when it
is due. -/
def step (s : Forwarder κ δ σ) : FwEvent → Forwarder κ δ σ
  | .interest ingress interest =>
    match s.faces ingress with
    | none => s
    | some face => s.onIncomingInterest E S interest ingress face
  | .data ingress endpoint data =>
    match s.faces ingress with
    | none => s
    | some face => s.onIncomingData E S data ingress face endpoint
  | .nack ingress nack =>
    match s.faces ingress with
    | none => s
    | some face => s.onIncomingNack S nack ingress face
  | .elapse duration => { s with now := s.now + duration }
  | .expire event =>
    match s.expiryEvents.find? fun ev => ev.id == event with
    | none => s
    | some ev =>
      if ev.due ≤ s.now then
        { s with expiryEvents := s.expiryEvents.filter fun ev => ev.id ≠ event }.onInterestFinalize E
          ev.pitEntry
      else s
  | .addFace face =>
    { s with
      faces := Function.update s.faces (s.lastFaceId + 1) (some face)
      lastFaceId := s.lastFaceId + 1 }
  | .removeFace face => s.removeFace face
  | .setState face state =>
    { s with faces := Function.update s.faces face ((s.faces face).map fun f => { f with state }) }
  | .addNextHop prefixName face cost => s.addNextHop prefixName face cost
  | .removeNextHop prefixName face =>
    if (s.faces face).isSome then { s with fib := s.fib.removeNextHop prefixName face } else s

def run (s : Forwarder κ δ σ) (es : List FwEvent) : Forwarder κ δ σ := es.foldl (step E S) s

theorem run_concat (s : Forwarder κ δ σ) (es : List FwEvent) (e : FwEvent) :
    s.run E S (es ++ [e]) = (s.run E S es).step E S e := by
  rw [run, List.foldl_append]
  rfl

/-! ## The state of the strategy

Only the functions of the strategy change its state. -/

section Frame

variable {E S} (s : Forwarder κ δ σ)

@[simp] theorem modifyEntry_strategy (id : ℕ) (f : PitEntry → PitEntry) :
    (s.modifyEntry id f).strategy = s.strategy := rfl

@[simp] theorem setExpiryTimer_strategy (id duration : ℕ) :
    (s.setExpiryTimer id duration).strategy = s.strategy := rfl

@[simp] theorem rejectPendingInterest_strategy (id : ℕ) :
    (s.rejectPendingInterest id).strategy = s.strategy := rfl

@[simp] theorem send_strategy (packet : Sent) : (s.send packet).strategy = s.strategy := rfl

@[simp] theorem pitInsert_strategy (interest : Interest) :
    (s.pitInsert interest).1.strategy = s.strategy := by
  unfold pitInsert
  split <;> rfl

@[simp] theorem insertDeadNonceList_strategy (e : PitEntry) (upstream : Option FaceId) :
    (s.insertDeadNonceList E e upstream).strategy = s.strategy := by
  unfold insertDeadNonceList
  dsimp only
  split_ifs <;> rfl

@[simp] theorem onInterestLoop_strategy (interest : Interest) (ingress : FaceId) (face : Face) :
    (s.onInterestLoop interest ingress face).strategy = s.strategy := by
  unfold onInterestLoop
  split_ifs <;> rfl

@[simp] theorem onOutgoingInterest_strategy (interest : Interest) (egress : FaceId) (face : Face)
    (id : ℕ) : (s.onOutgoingInterest interest egress face id).1.strategy = s.strategy := by
  unfold onOutgoingInterest
  split_ifs <;> rfl

@[simp] theorem onOutgoingData_strategy (data : Data) (egress : FaceId) :
    (s.onOutgoingData data egress).1.strategy = s.strategy := by
  unfold onOutgoingData
  split
  · rfl
  · split_ifs <;> rfl

@[simp] theorem sendData_strategy (data : Data) (egress : FaceId) (id : ℕ) :
    (s.sendData data egress id).strategy = s.strategy := by
  unfold sendData
  split
  · rfl
  · dsimp only
    split
    · simp
    · split_ifs <;> simp

@[simp] theorem insertInRecord_strategy (interest : Interest) (ingress : FaceId) (id : ℕ) :
    (s.insertInRecord interest ingress id).strategy = s.strategy := by
  unfold insertInRecord
  dsimp only
  split <;> simp

@[simp] theorem onInterestFinalize_strategy (id : ℕ) :
    (s.onInterestFinalize E id).strategy = s.strategy := by
  unfold onInterestFinalize
  split <;> simp

@[simp] theorem addNextHop_strategy (prefixName : Name) (face : FaceId) (cost : ℕ) :
    (s.addNextHop prefixName face cost).strategy = s.strategy := by
  unfold addNextHop
  split_ifs
  · rfl
  · split <;> rfl

theorem onContentStoreHit_strategy
    (hS : ∀ (s : Forwarder κ δ σ) d g id, (S.beforeSatisfyInterest s d g id).strategy = s.strategy)
    (interest : Interest) (ingress : FaceId) (id : ℕ) (data : Data) :
    (s.onContentStoreHit S interest ingress id data).strategy = s.strategy := by
  unfold onContentStoreHit
  simp [hS]

theorem satisfyEntries_strategy
    (hS : ∀ (s : Forwarder κ δ σ) d g id, (S.beforeSatisfyInterest s d g id).strategy = s.strategy)
    (data : Data) (ingress : FaceId) (satisfied : List (FaceId × ℕ))
    (unsatisfied : List ((FaceId × ℕ) × ℕ)) (entries : List ℕ) :
    (satisfyEntries E S data ingress s satisfied unsatisfied entries).1.strategy = s.strategy := by
  induction entries generalizing s satisfied unsatisfied with
  | nil => rfl
  | cons id entries ih =>
    rw [satisfyEntries]
    split
    · rw [ih]
    · dsimp only [satisfyInterest]
      rw [ih, modifyEntry_strategy]
      split <;> simp [hS]

theorem closeUnsatisfied_strategy (satisfied : List (FaceId × ℕ))
    (unsatisfied : List ((FaceId × ℕ) × ℕ)) :
    (closeUnsatisfied satisfied s unsatisfied).strategy = s.strategy := by
  induction unsatisfied generalizing s with
  | nil => rfl
  | cons u unsatisfied ih =>
    rw [closeUnsatisfied]
    split_ifs
    · dsimp only
      rw [ih]
      split
      · rfl
      · split_ifs <;> rfl
    · rw [ih]

theorem sendDownstreams_strategy (data : Data) (ingress : FaceId) (face : Face) (endpoint : ℕ)
    (downstreams : List (FaceId × ℕ)) :
    (sendDownstreams data ingress face endpoint s downstreams).strategy = s.strategy := by
  induction downstreams generalizing s with
  | nil => rfl
  | cons d downstreams ih =>
    rw [sendDownstreams]
    split_ifs
    · rw [ih]
    · rw [ih, onOutgoingData_strategy]

/-- **The Data pipeline does not touch the strategy**, as long as `beforeSatisfyInterest` does
not. -/
theorem onIncomingData_strategy
    (hS : ∀ (s : Forwarder κ δ σ) d g id, (S.beforeSatisfyInterest s d g id).strategy = s.strategy)
    (data : Data) (ingress : FaceId) (face : Face) (endpoint : ℕ) :
    (s.onIncomingData E S data ingress face endpoint).strategy = s.strategy := by
  unfold onIncomingData
  split_ifs
  · rfl
  · unfold onDataUnsolicited
    dsimp only
    split_ifs
    · rfl
    · rfl
    · rw [sendDownstreams_strategy, closeUnsatisfied_strategy, satisfyEntries_strategy _ hS]

def Incoming.state : Incoming κ δ σ → Forwarder κ δ σ
  | .done s => s
  | .hit s _ _ _ => s
  | .miss s _ _ => s

theorem lookupTables_strategy (interest : Interest) (ingress : FaceId) (face : Face) :
    (s.lookupTables E interest ingress face).state.strategy = s.strategy := by
  unfold lookupTables
  dsimp only
  split_ifs
  · exact (onInterestLoop_strategy ..).trans (pitInsert_strategy ..)
  · split <;> exact pitInsert_strategy ..
  · exact pitInsert_strategy ..

theorem incomingInterest_strategy (interest : Interest) (ingress : FaceId) (face : Face) :
    (s.incomingInterest E interest ingress face).state.strategy = s.strategy := by
  unfold incomingInterest
  dsimp only
  split_ifs
  · rfl
  · rfl
  · exact onInterestLoop_strategy ..
  · exact lookupTables_strategy ..

end Frame

structure StrategyCall (κ δ σ : Type) where
  state : Forwarder κ δ σ
  interest : Interest
  inFace : Face
  pitEntry : ℕ

def strategyCall (s : Forwarder κ δ σ) (ingress : FaceId) (interest : Interest) :
    Option (StrategyCall κ δ σ) :=
  match s.faces ingress with
  | none => none
  | some face =>
    match s.incomingInterest E interest ingress face with
    | .miss s interest id =>
      match s.contentStoreMiss E interest ingress id with
      | (s, interest, none) => some ⟨s, interest, face, id⟩
      | (_, _, some _) => none
    | _ => none

/-- **What an Interest does to the strategy.** -/
theorem step_interest_strategy
    (hS : ∀ (s : Forwarder κ δ σ) d g id, (S.beforeSatisfyInterest s d g id).strategy = s.strategy)
    (s : Forwarder κ δ σ) (ingress : FaceId) (interest : Interest) :
    (s.strategyCall E ingress interest = none ∧
        (s.step E S (.interest ingress interest)).strategy = s.strategy) ∨
      ∃ call, s.strategyCall E ingress interest = some call ∧
        call.state.strategy = s.strategy ∧ s.step E S (.interest ingress interest) =
          S.afterReceiveInterest call.state call.interest ingress call.inFace call.pitEntry := by
  rw [strategyCall, step]
  cases hface : s.faces ingress with
  | none => exact .inl ⟨rfl, rfl⟩
  | some face =>
    have hincoming := s.incomingInterest_strategy (E := E) interest ingress face
    dsimp only
    rw [onIncomingInterest]
    cases hcase : s.incomingInterest E interest ingress face with
    | done s' =>
      rw [hcase] at hincoming
      exact .inl ⟨rfl, hincoming⟩
    | hit s' interest' id data =>
      rw [hcase] at hincoming
      exact .inl ⟨rfl, (onContentStoreHit_strategy s' hS interest' ingress id data).trans hincoming⟩
    | miss s' interest' id =>
      rw [hcase] at hincoming
      dsimp only
      rw [onContentStoreMiss, contentStoreMiss]
      cases hnext : (if 0 < E.defaultHopLimit ∧ interest'.hopLimit = none then
          { interest' with hopLimit := some E.defaultHopLimit } else interest').nextHopFaceId with
      | none => exact .inr ⟨_, rfl, (insertInRecord_strategy ..).trans hincoming, rfl⟩
      | some nextHop =>
        refine .inl ⟨rfl, ?_⟩
        dsimp only
        split
        · exact (insertInRecord_strategy ..).trans hincoming
        · rw [onOutgoingInterest_strategy, insertInRecord_strategy]
          exact hincoming

theorem step_other_strategy (s : Forwarder κ δ σ) (e : FwEvent) (h : e.isPacket = false) :
    (s.step E S e).strategy = s.strategy := by
  cases e with
  | interest ingress interest => cases h
  | data ingress endpoint data => cases h
  | nack ingress nack => cases h
  | elapse duration => rfl
  | expire id =>
    rw [step]
    split
    · rfl
    · split_ifs
      · exact onInterestFinalize_strategy ..
      · rfl
  | addFace face => rfl
  | removeFace face => rfl
  | setState face state => rfl
  | addNextHop prefixName face cost => exact addNextHop_strategy ..
  | removeNextHop prefixName face =>
    rw [step]
    split_ifs <;> rfl

end Forwarder

end Ns3Ndn
