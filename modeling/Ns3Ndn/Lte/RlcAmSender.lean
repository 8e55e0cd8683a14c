import Ns3Ndn.Lte.RlcSegmentation

/-!
# The transmitting side of LTE RLC AM

`lte/model/lte-rlc-am.cc`: a new data PDU gets the number `VT(S)` and waits in `m_txedBuffer` for a status report. A report moves it to
`m_retxBuffer` if it is missing, and forgets it if it was received; `VT(A)` moves over the numbers that are received from the front
on. When the poll-retransmit timer expires everything that waits goes to `m_retxBuffer`.
-/

namespace Ns3Ndn.Lte

open SequenceNumber10

/-- The transmitting side of `LteRlcAm`. The two buffers have a place for each of the 1024 numbers. -/
structure RlcAmSender where
  maxTxBufferSize : UInt32 := 10 * 1024
  txOpportunityForRetxAlwaysBigEnough : Bool := false
  windowSize : ℕ := 512
  pollPdu : ℕ := 1
  pollByte : ℕ := 50
  txon : TxBuffer := {}
  retxBuffer : ℕ → Option RlcPdu := fun _ => none
  retxBufferSize : UInt32 := 0
  txedBuffer : ℕ → Option RlcPdu := fun _ => none
  txedBufferSize : UInt32 := 0
  vtA : SequenceNumber10 := ofValue 0
  vtMs : SequenceNumber10 := (ofValue 0).add 512
  vtS : SequenceNumber10 := ofValue 0
  pollSn : SequenceNumber10 := ofValue 0
  pduWithoutPoll : ℕ := 0
  byteWithoutPoll : ℕ := 0
  pollRetransmitTimer : Bool := false
  pollRetransmitTimerJustExpired : Bool := false

namespace RlcAmSender

variable (s : RlcAmSender)

def hasSpace (sdu : List UInt8) : Bool :=
  s.txon.txBufferSize + UInt32.ofNat sdu.length ≤ s.maxTxBufferSize ∨ s.maxTxBufferSize = 0

def transmitPdcpPdu (sdu : List UInt8) : RlcAmSender := if s.hasSpace sdu then { s with txon := s.txon.add sdu } else s

def poll : RlcAmSender :=
  { s with
    pollRetransmitTimerJustExpired := false
    pduWithoutPoll := 0
    byteWithoutPoll := 0
    pollSn := s.vtS.sub 1
    pollRetransmitTimer := true }

def pollNeeded (condition : Bool) : Option Bool :=
  if condition then some true else (s.vtS.ge s.vtMs).map fun stalled => stalled || s.pollRetransmitTimerJustExpired

/-- A PDU goes from `m_txedBuffer` to `m_retxBuffer`. -/
def moveToRetx (value : ℕ) (pdu : RlcPdu) : RlcAmSender :=
  { s with
    retxBuffer := Function.update s.retxBuffer value (some pdu)
    retxBufferSize := s.retxBufferSize + UInt32.ofNat pdu.getSize
    txedBufferSize := s.txedBufferSize - UInt32.ofNat pdu.getSize
    txedBuffer := Function.update s.txedBuffer value none }

/-- A PDU goes back to `m_txedBuffer`. -/
def moveToTxed (value : ℕ) (pdu : RlcPdu) : RlcAmSender :=
  { s with
    txedBuffer := Function.update s.txedBuffer value (some pdu)
    txedBufferSize := s.txedBufferSize + UInt32.ofNat pdu.getSize
    retxBufferSize := s.retxBufferSize - UInt32.ofNat pdu.getSize
    retxBuffer := Function.update s.retxBuffer value none }

/-- The loop over `m_retxBuffer`. The numbers from `VT(A)` to `VT(S)` are less than 1024. -/
def findRetx : ℕ → SequenceNumber10 → Option (Option (ℕ × RlcPdu))
  | 0, _ => none
  | fuel + 1, sn => (sn.lt s.vtS).bind fun inside =>
    if inside then
      match s.retxBuffer sn.value with
      | some pdu => some (some (sn.value, pdu))
      | none => findRetx fuel sn.succ
    else some none

/-- The branch for retransmission, with its assertions. The header of the PDU is built anew, with another polling bit. -/
def retransmit (bytes : ℕ) : Option (RlcAmSender × Option RlcPdu) :=
  (s.vtA.lt s.vtS).bind fun outstanding => if outstanding then
    (s.findRetx 1024 s.vtA).bind fun found => found.bind fun entry =>
      if entry.2.getSize ≤ bytes ∨ s.txOpportunityForRetxAlwaysBigEnough then
        (s.pollNeeded (s.txon.txBuffer.isEmpty && s.retxBufferSize = UInt32.ofNat entry.2.getSize)).map fun pollingBit =>
          ((if pollingBit then s.poll else s).moveToTxed entry.1 entry.2,
            some { entry.2 with header := { entry.2.header with pollingBit := pollingBit } })
      else some (s, none)
    else none

/-- A new PDU goes to `m_txedBuffer`. -/
def storeTxed (value : ℕ) (pdu : RlcPdu) : RlcAmSender :=
  { s with
    txedBufferSize := s.txedBufferSize + UInt32.ofNat pdu.getSize
    txedBuffer := Function.update s.txedBuffer value (some pdu) }

def countPdu (pdu : RlcPdu) : RlcAmSender :=
  { s with pduWithoutPoll := s.pduWithoutPoll + 1, byteWithoutPoll := s.byteWithoutPoll + pdu.data.length }

/-- The end of the branch for a new PDU: the polling bit, and the place in `m_txedBuffer`. -/
def sendNew (sequenceNumber : SequenceNumber10) (pdu : RlcPdu) : Option (RlcAmSender × Option RlcPdu) :=
  let s := s.countPdu pdu
  (s.pollNeeded (s.pduWithoutPoll ≥ s.pollPdu ∨ s.byteWithoutPoll ≥ s.pollByte ∨
      (s.txon.txBuffer.isEmpty ∧ s.retxBufferSize = 0))).map fun pollingBit =>
    let pdu := { pdu with header := { pdu.header with pollingBit := pollingBit } }
    ((if pollingBit then s.poll else s).storeTxed sequenceNumber.value pdu, some pdu)

def transmitNew (bytes : ℕ) : Option (RlcAmSender × Option RlcPdu) :=
  (s.vtS.le s.vtMs).bind fun inWindow => if inWindow then
    if s.vtS.value = s.vtMs.value then some (s, none)
    else (s.txon.buildPdu .am bytes s.vtS).bind fun r => match r.2 with
      | none => some (s, none)
      | some pdu => (s.vtS.lt s.vtMs).bind fun belowMs => (s.vtS.ge s.vtA).bind fun aboveA =>
        if belowMs ∧ aboveA then { s with txon := r.1, vtS := s.vtS.succ }.sendNew s.vtS pdu else none
    else none

/-- `DoNotifyTxOpportunity`, without a status report to send. Where the source asserts that the opportunity is large enough,
nothing is sent. -/
def notifyTxOpportunity (bytes : ℕ) : Option (RlcAmSender × Option RlcPdu) :=
  if bytes < 4 then some (s, none)
  else if s.retxBufferSize > 0 then s.retransmit bytes
  else if s.txon.txBufferSize > 0 then if bytes < 7 then some (s, none) else s.transmitNew bytes
  else some (s, none)

/-- A PDU that is reported as missing. It is in `m_retxBuffer` then. -/
def nack (value : ℕ) : Option RlcAmSender :=
  let s := match s.txedBuffer value with
    | some pdu => s.moveToRetx value pdu
    | none => s
  if (s.retxBuffer value).isSome then some s else none

def forgetTxed (value : ℕ) : Option RlcAmSender :=
  match s.txedBuffer value with
  | some pdu =>
    if (s.retxBuffer value).isNone then
      some { s with
        txedBufferSize := s.txedBufferSize - UInt32.ofNat pdu.getSize
        txedBuffer := Function.update s.txedBuffer value none }
    else none
  | none => some s

def forgetRetx (value : ℕ) : RlcAmSender :=
  match s.retxBuffer value with
  | some pdu =>
    { s with
      retxBufferSize := s.retxBufferSize - UInt32.ofNat pdu.getSize
      retxBuffer := Function.update s.retxBuffer value none }
  | none => s

/-- A PDU that is not reported as missing. -/
def ack (value : ℕ) : Option RlcAmSender := (s.forgetTxed value).map fun s => s.forgetRetx value

/-- The poll-retransmit timer is stopped when there is a report about `POLL_SN`. -/
def stopPoll (value : ℕ) : RlcAmSender :=
  if s.pollRetransmitTimer ∧ value = s.pollSn.value then { s with pollRetransmitTimer := false } else s

def processStatus (nacks : List ℕ) (value : ℕ) : Option RlcAmSender :=
  if value ∈ nacks then (s.stopPoll value).nack value else (s.stopPoll value).ack value

def incrementVtA : RlcAmSender :=
  let vtA := s.vtA.succ
  { s with
    vtA := vtA.setModulusBase vtA.value
    vtMs := (vtA.add s.windowSize).setModulusBase vtA.value
    vtS := s.vtS.setModulusBase vtA.value }

def statusLoop (nacks : List ℕ) : ℕ → RlcAmSender → SequenceNumber10 → SequenceNumber10 → Bool → Option RlcAmSender
  | 0, _, _, _, _ => none
  | fuel + 1, s, ackSn, sn, incrementVtA => (sn.lt ackSn).bind fun acked => if acked then
      (sn.lt s.vtS).bind fun sent => if sent then
        (s.processStatus nacks sn.value).bind fun s =>
          if incrementVtA ∧ sn.value ∉ nacks then
            let s := s.incrementVtA
            statusLoop nacks fuel s (ackSn.setModulusBase s.vtA.value) (sn.setModulusBase s.vtA.value).succ true
          else statusLoop nacks fuel s ackSn sn.succ false
        else some s
    else some s

def receiveStatus (ackSn : SequenceNumber10) (nacks : List ℕ) : Option RlcAmSender :=
  let base := s.vtA.value
  let s := { s with
    vtA := s.vtA.setModulusBase base
    vtS := s.vtS.setModulusBase base
    vtMs := s.vtMs.setModulusBase base }
  statusLoop nacks 1024 s (ackSn.setModulusBase base) s.vtA true

/-- The loop of `ExpirePollRetransmitTimer`. -/
def moveAll : ℕ → RlcAmSender → SequenceNumber10 → Option RlcAmSender
  | 0, _, _ => none
  | fuel + 1, s, sn => (sn.lt s.vtS).bind fun inside => if inside then
      match s.txedBuffer sn.value with
      | some pdu => moveAll fuel (s.moveToRetx sn.value pdu) sn.succ
      | none => moveAll fuel s sn.succ
    else some s

/-- `ExpirePollRetransmitTimer`. The event is no longer pending when it runs. -/
def expirePollRetransmitTimer : Option RlcAmSender :=
  let s := { s with pollRetransmitTimer := false, pollRetransmitTimerJustExpired := true }
  (s.vtS.le s.vtMs).bind fun inWindow => if inWindow then
    if (s.txon.txBufferSize = 0 ∧ s.retxBufferSize = 0) ∨ s.vtS.value = s.vtMs.value then moveAll 1024 s s.vtA else some s
    else none

/-! ## What the other calls leave -/

/-- The transmission buffer and the next number are left as they are. -/
def Keeps (s s' : RlcAmSender) : Prop := s'.txon = s.txon ∧ s'.vtS.value = s.vtS.value

section Keeps

variable {s : RlcAmSender} {s' s'' : RlcAmSender}

theorem Keeps.refl (s : RlcAmSender) : s.Keeps s := ⟨rfl, rfl⟩

theorem Keeps.trans (h : s.Keeps s') (h' : s'.Keeps s'') : s.Keeps s'' := ⟨h'.1.trans h.1, h'.2.trans h.2⟩

theorem keeps_stopPoll (value : ℕ) : s.Keeps (s.stopPoll value) := by
  rw [stopPoll]
  split_ifs <;> exact ⟨rfl, rfl⟩

theorem keeps_nack {value : ℕ} (h : s.nack value = some s') : s.Keeps s' := by
  rw [nack, Option.ite_none_right_eq_some] at h
  rw [← Option.some_inj.mp h.2]
  cases s.txedBuffer value <;> exact ⟨rfl, rfl⟩

theorem keeps_forgetTxed {value : ℕ} (h : s.forgetTxed value = some s') : s.Keeps s' := by
  rw [forgetTxed] at h
  cases htxed : s.txedBuffer value with
  | none =>
    rw [htxed] at h
    rw [← Option.some_inj.mp h]
    exact .refl s
  | some pdu =>
    rw [htxed, Option.ite_none_right_eq_some] at h
    rw [← Option.some_inj.mp h.2]
    exact ⟨rfl, rfl⟩

theorem keeps_forgetRetx (value : ℕ) : s.Keeps (s.forgetRetx value) := by
  rw [forgetRetx]
  cases s.retxBuffer value <;> exact ⟨rfl, rfl⟩

theorem keeps_ack {value : ℕ} (h : s.ack value = some s') : s.Keeps s' := by
  obtain ⟨s1, hs1, rfl⟩ := Option.map_eq_some_iff.mp h
  exact (keeps_forgetTxed hs1).trans (keeps_forgetRetx value)

variable {nacks : List ℕ}

theorem keeps_processStatus {value : ℕ} (h : s.processStatus nacks value = some s') : s.Keeps s' := by
  rw [processStatus] at h
  split_ifs at h
  · exact (keeps_stopPoll value).trans (keeps_nack h)
  · exact (keeps_stopPoll value).trans (keeps_ack h)

theorem keeps_statusLoop {fuel : ℕ} {ackSn sn : SequenceNumber10} {increment : Bool}
    (h : statusLoop nacks fuel s ackSn sn increment = some s') : s.Keeps s' := by
  induction fuel generalizing s ackSn sn increment with
  | zero => exact absurd h (by simp [statusLoop])
  | succ fuel ih =>
    obtain ⟨acked, -, h⟩ := Option.bind_eq_some_iff.mp h
    cases acked with
    | false => exact Option.some_inj.mp h ▸ .refl s
    | true =>
      obtain ⟨sent, -, h⟩ := Option.bind_eq_some_iff.mp h
      cases sent with
      | false => exact Option.some_inj.mp h ▸ .refl s
      | true =>
        obtain ⟨s1, hs1, h⟩ := Option.bind_eq_some_iff.mp h
        have hkeeps := keeps_processStatus hs1
        split_ifs at h
        · have hrest := ih h
          exact hkeeps.trans ⟨hrest.1, hrest.2⟩
        · exact hkeeps.trans (ih h)

theorem keeps_receiveStatus {ackSn : SequenceNumber10} (h : s.receiveStatus ackSn nacks = some s') :
    s.Keeps s' := by
  have hloop := keeps_statusLoop h
  exact ⟨hloop.1, hloop.2⟩

theorem keeps_moveAll {fuel : ℕ} {sn : SequenceNumber10} (h : moveAll fuel s sn = some s') : s.Keeps s' := by
  induction fuel generalizing s sn with
  | zero => exact absurd h (by simp [moveAll])
  | succ fuel ih =>
    obtain ⟨inside, -, h⟩ := Option.bind_eq_some_iff.mp h
    cases inside with
    | false => exact Option.some_inj.mp h ▸ .refl s
    | true =>
      cases htxed : s.txedBuffer sn.value with
      | none =>
        rw [if_pos rfl, htxed] at h
        exact ih h
      | some pdu =>
        rw [if_pos rfl, htxed] at h
        have hrest := ih h
        exact ⟨hrest.1, hrest.2⟩

theorem keeps_expirePollRetransmitTimer (h : s.expirePollRetransmitTimer = some s') : s.Keeps s' := by
  obtain ⟨inWindow, -, h⟩ := Option.bind_eq_some_iff.mp h
  split_ifs at h
  · have hloop := keeps_moveAll h
    exact ⟨hloop.1, hloop.2⟩
  · exact Option.some_inj.mp h ▸ ⟨rfl, rfl⟩

theorem keeps_retransmit {bytes : ℕ} {out : Option RlcPdu} (h : s.retransmit bytes = some (s', out)) : s.Keeps s' := by
  obtain ⟨outstanding, -, h⟩ := Option.bind_eq_some_iff.mp h
  rw [Option.ite_none_right_eq_some] at h
  obtain ⟨found, -, h⟩ := Option.bind_eq_some_iff.mp h.2
  obtain ⟨entry, -, h⟩ := Option.bind_eq_some_iff.mp h
  split_ifs at h
  · obtain ⟨pollingBit, -, h⟩ := Option.map_eq_some_iff.mp h
    rw [← (Prod.mk.inj h).1]
    cases pollingBit <;> exact ⟨rfl, rfl⟩
  · rw [← (Prod.mk.inj (Option.some_inj.mp h)).1]
    exact .refl s

end Keeps

theorem pollNeeded_eq_some {s : RlcAmSender} {stalled : Bool} (h : s.vtS.ge s.vtMs = some stalled) (condition : Bool) :
    ∃ pollingBit, s.pollNeeded condition = some pollingBit := by
  rw [pollNeeded, h]
  cases condition with
  | false => exact ⟨_, rfl⟩
  | true => exact ⟨_, rfl⟩

theorem sendNew_eq_some {s : RlcAmSender} {stalled : Bool} (h : s.vtS.ge s.vtMs = some stalled)
    (sequenceNumber : SequenceNumber10) (pdu : RlcPdu) : ∃ r, s.sendNew sequenceNumber pdu = some r := by
  obtain ⟨pollingBit, hbit⟩ := pollNeeded_eq_some (s := s.countPdu pdu) h
    ((s.countPdu pdu).pduWithoutPoll ≥ (s.countPdu pdu).pollPdu ∨ (s.countPdu pdu).byteWithoutPoll ≥ (s.countPdu pdu).pollByte ∨
      ((s.countPdu pdu).txon.txBuffer.isEmpty ∧ (s.countPdu pdu).retxBufferSize = 0))
  exact ⟨_, Option.map_eq_some_iff.mpr ⟨pollingBit, hbit, rfl⟩⟩

/-- The polling bit changes nothing but the variables for polling. -/
theorem sendNew_cases {s s' : RlcAmSender} {sequenceNumber : SequenceNumber10} {pdu : RlcPdu} {out : Option RlcPdu}
    (h : s.sendNew sequenceNumber pdu = some (s', out)) :
    ∃ pollingBit, out = some { pdu with header := { pdu.header with pollingBit := pollingBit } } ∧
      s' = (if pollingBit then (s.countPdu pdu).poll else s.countPdu pdu).storeTxed sequenceNumber.value
        { pdu with header := { pdu.header with pollingBit := pollingBit } } := by
  obtain ⟨pollingBit, -, h⟩ := Option.map_eq_some_iff.mp h
  obtain ⟨hs', hout⟩ := Prod.mk.inj h
  exact ⟨pollingBit, hout.symm, hs'.symm⟩

theorem transmitNew_cases {s s' : RlcAmSender} {bytes : ℕ} {out : Option RlcPdu} (h : s.transmitNew bytes = some (s', out)) :
    (s' = s ∧ out = none) ∨ ∃ t' pdu, s.txon.buildPdu .am bytes s.vtS = some (t', some pdu) ∧
      { s with txon := t', vtS := s.vtS.succ }.sendNew s.vtS pdu = some (s', out) := by
  obtain ⟨inWindow, -, h⟩ := Option.bind_eq_some_iff.mp h
  rw [Option.ite_none_right_eq_some] at h
  have h := h.2
  split_ifs at h with hstalled
  · exact .inl ⟨(Prod.mk.inj (Option.some_inj.mp h)).1.symm, (Prod.mk.inj (Option.some_inj.mp h)).2.symm⟩
  · obtain ⟨⟨t', out'⟩, hbuild, h⟩ := Option.bind_eq_some_iff.mp h
    cases out' with
    | none => exact .inl ⟨(Prod.mk.inj (Option.some_inj.mp h)).1.symm, (Prod.mk.inj (Option.some_inj.mp h)).2.symm⟩
    | some pdu =>
      obtain ⟨belowMs, -, h⟩ := Option.bind_eq_some_iff.mp h
      obtain ⟨aboveA, -, h⟩ := Option.bind_eq_some_iff.mp h
      rw [Option.ite_none_right_eq_some] at h
      exact .inr ⟨t', pdu, hbuild, h.2⟩

end RlcAmSender

end Ns3Ndn.Lte
