import Ns3Ndn.Lib.Circular
import Ns3Ndn.Face.LpPacket

/-!
# Link-layer reliability

`NFD/daemon/face/lp-reliability.cpp`: fragments of network packets are kept under their TxSequence
number until they are acknowledged, retransmitted under a new number when they are lost, and given
up when they were retransmitted too often.

Iterators into `m_unackedFrags` are keys, with `none` for `end()`; `NetPkt` objects are shared and
have an address. A failed assertion, the use of an invalid iterator, an endless loop and the
exception of `assignTxSequence` end the run as a `Fault`. The real time of a retransmission timeout
is left open: `rtoExpired` may come at any moment for a stored fragment.

Two components are not in the code: `nAssigned` numbers the TxSequences in the order of their
assignment (`UnackedFrag.assigned` is the number of a stored one), and `counted` records for which
network packet a counter was incremented.

* `Event`, `run`: any sequence of outgoing packets, incoming packets and timeouts.
-/

namespace Ns3Ndn

open OrdLib LpPacket

/-- A sent fragment that has not been acknowledged. -/
structure UnackedFrag where
  pkt : LpPacket
  retxCount : ℕ := 0
  nGreaterSeqAcks : ℕ := 0
  netPkt : ℕ := 0
  assigned : ℕ
deriving DecidableEq

/-- A network packet with unacknowledged fragments. -/
structure NetPkt where
  unackedFrags : List ℕ := []
  pkt : LpPacket := {}
  isInterest : Bool := false
  didRetx : Bool := false
deriving DecidableEq

inductive Counter where
  | nAcknowledged
  | nRetransmitted
  | nRetxExhausted
deriving DecidableEq

/-- How a run can end: `std::length_error`, with the size of the send window; a failed assertion;
the use of an iterator that points nowhere; a loop that does not end. -/
inductive Fault where
  | lengthError (window : ℕ)
  | assertion
  | iterator
  | endless
deriving DecidableEq

/-- The state of `LpReliability`, with the counters of its link service and the packets it sent. -/
structure LpReliability where
  unackedFrags : OrdMap ℕ UnackedFrag
  firstUnackedFrag : Option ℕ
  lastTxSeqNo : ℕ
  netPkts : ℕ → NetPkt
  nNetPkts : ℕ
  counter : Counter → ℕ
  sent : List LpPacket
  ackQueue : List ℕ
  recentRecvSeqs : OrdMap ℕ ℕ
  recentRecvSeqsQueue : List ℕ
  nAssigned : ℕ
  counted : List (ℕ × Counter)

namespace LpReliability

structure Options where
  maxRetx : ℕ := 3
  seqNumLossThreshold : ℕ := 3

/-- The state before anything was sent. -/
def init (lastTxSeqNo : UInt64) : LpReliability where
  unackedFrags := OrdMap.empty
  firstUnackedFrag := none
  lastTxSeqNo := lastTxSeqNo.toNat
  netPkts := fun _ => {}
  nNetPkts := 0
  counter := fun _ => 0
  sent := []
  ackQueue := []
  recentRecvSeqs := OrdMap.empty
  recentRecvSeqsQueue := []
  nAssigned := 0
  counted := []

variable (s : LpReliability)

/-! ## Small edits -/

def deref : Option ℕ → Except Fault (ℕ × UnackedFrag)
  | none => .error .iterator
  | some k =>
    match s.unackedFrags.find? k with
    | some frag => .ok (k, frag)
    | none => .error .iterator

/-- Change a network packet in place. -/
def modifyNetPkt (id : ℕ) (f : NetPkt → NetPkt) : LpReliability :=
  { s with netPkts := Function.update s.netPkts id (f (s.netPkts id)) }

def count (id : ℕ) (c : Counter) : LpReliability :=
  { s with
    counter := Function.update s.counter c (s.counter c + 1)
    counted := s.counted ++ [(id, c)] }

/-- `m_unackedFrags.emplace_hint`: an element that is already there stays. -/
def emplace (txSeq : ℕ) (pkt : LpPacket) : LpReliability :=
  { s with unackedFrags := s.unackedFrags.insertNew txSeq { pkt, assigned := s.nAssigned } }

/-- Change a stored fragment in place. -/
def modifyFrag (txSeq : ℕ) (f : UnackedFrag → UnackedFrag) : LpReliability :=
  { s with unackedFrags := s.unackedFrags.modify txSeq f }

/-- The state after `++m_lastTxSeqNo`. -/
def advance : LpReliability :=
  { s with lastTxSeqNo := (s.lastTxSeqNo + 1) % 2 ^ 64, nAssigned := s.nAssigned + 1 }

/-! ## The send window -/

/-- Assign the next TxSequence number, which must not be the start of the window. -/
def assignTxSequence : Except Fault (ℕ × LpReliability) :=
  if s.unackedFrags.toList.isEmpty then .ok (s.advance.lastTxSeqNo, s.advance)
  else
    (s.deref s.firstUnackedFrag).bind fun first =>
      if s.advance.lastTxSeqNo = first.1 then
        .error (.lengthError (behind (2 ^ 64) s.lastTxSeqNo first.1 + 1))
      else .ok (s.advance.lastTxSeqNo, s.advance)

/-- Delete a fragment and move the start of the window past it. -/
def deleteUnackedFrag (fragIt : ℕ) : Except Fault LpReliability :=
  (s.deref s.firstUnackedFrag).bind fun first =>
  (s.deref (some fragIt)).bind fun current =>
  let rest := s.unackedFrags.erase fragIt
  .ok { s with
    unackedFrags := rest
    firstUnackedFrag :=
      if ¬ rest.toList.isEmpty ∧ first.1 = current.1 then rest.nextCircular fragIt
      else if rest.toList.isEmpty then none
      else s.firstUnackedFrag }

def findLostLoop (options : Options) (ackIt : ℕ) :
    (fuel : ℕ) → (it : Option ℕ) → (lost : List ℕ) → LpReliability →
      Except Fault (List ℕ × LpReliability)
  | 0, _, _, _ => .error .endless
  | fuel + 1, it, lost, s =>
    (s.deref (it.or s.unackedFrags.begin?)).bind fun b =>
    if b.1 = ackIt then .ok (lost, s)
    else
      let unackedFrag := { b.2 with nGreaterSeqAcks := b.2.nGreaterSeqAcks + 1 }
      let s := { s with unackedFrags := s.unackedFrags.insert b.1 unackedFrag }
      let lost :=
        if options.seqNumLossThreshold ≤ unackedFrag.nGreaterSeqAcks then lost ++ [b.1] else lost
      findLostLoop options ackIt fuel (s.unackedFrags.next? b.1) lost s

/-- The fragments considered lost because a younger one was acknowledged. -/
def findLostLpPackets (options : Options) (ackIt : ℕ) : Except Fault (List ℕ × LpReliability) :=
  findLostLoop options ackIt s.unackedFrags.toList.length s.firstUnackedFrag [] s

/-! ## Losses and acknowledgements -/

/-- One turn of the loop that deletes the other fragments of a network packet that is given up. -/
def dropSibling (txSeq : ℕ) (acc : List ℕ × LpReliability) (frag : ℕ) :
    Except Fault (List ℕ × LpReliability) :=
  if frag ≠ txSeq then (acc.2.deleteUnackedFrag frag).map fun s => (acc.1 ++ [frag], s)
  else .ok acc

/-- Give up the network packet of a fragment. -/
def drop (txSeq id : ℕ) : Except Fault (List ℕ × LpReliability) :=
  ((s.netPkts id).unackedFrags.foldlM (dropSibling txSeq) ([], s)).bind fun acc =>
  let s := acc.2.count id .nRetxExhausted
  if (s.netPkts id).isInterest ∧ ¬ (s.netPkts id).pkt.has tlvFragment then .error .assertion
  else (s.deleteUnackedFrag txSeq).map fun s => (acc.1 ++ [txSeq], s)

/-- Store a lost fragment under its new TxSequence number, which takes the place of the old one in
the list of its network packet. -/
def moveFrag (txSeq newTxSeq : ℕ) (txFrag : UnackedFrag) : LpReliability :=
  let pkt := txFrag.pkt.set tlvTxSequence (encodeSequence newTxSeq)
  ((s.emplace newTxSeq pkt).modifyFrag newTxSeq fun f =>
      { f with retxCount := txFrag.retxCount + 1, netPkt := txFrag.netPkt }).modifyNetPkt
    txFrag.netPkt fun p =>
      { p with didRetx := true, unackedFrags := p.unackedFrags.replace txSeq newTxSeq }

/-- Move a fragment to a new TxSequence number and send it again. -/
def retransmit (txSeq : ℕ) (txFrag : UnackedFrag) : Except Fault (List ℕ × LpReliability) :=
  s.assignTxSequence.bind fun a =>
  if txSeq ∈ (a.2.netPkts txFrag.netPkt).unackedFrags then
    ((a.2.moveFrag txSeq a.1 txFrag).deleteUnackedFrag txSeq).map fun s => ([txSeq], { s with
      sent := s.sent ++ [txFrag.pkt.set tlvTxSequence (encodeSequence a.1)] })
  else .error .assertion

/-- Resend or give up a lost fragment. Returns the TxSequences that were removed. -/
def onLpPacketLost (options : Options) (txSeq : ℕ) : Except Fault (List ℕ × LpReliability) :=
  match s.unackedFrags.find? txSeq with
  | none => .error .assertion
  | some txFrag =>
    if options.maxRetx ≤ txFrag.retxCount then s.drop txSeq txFrag.netPkt
    else s.retransmit txSeq txFrag

/-- `*it = back(); pop_back()` at the position of `x`. -/
def swapRemove (x : ℕ) (l : List ℕ) : List ℕ := (l.replace x (l.getLast?.getD x)).dropLast

/-- Take a fragment out of the list of its network packet, and count the packet with its last
fragment. -/
def release (id fragIt : ℕ) : LpReliability :=
  let s := s.modifyNetPkt id fun p => { p with unackedFrags := swapRemove fragIt p.unackedFrags }
  if (s.netPkts id).unackedFrags.isEmpty then
    s.count id (if (s.netPkts id).didRetx then .nRetransmitted else .nAcknowledged)
  else s

def onLpPacketAcknowledged (fragIt : ℕ) : Except Fault LpReliability :=
  (s.deref (some fragIt)).bind fun b =>
  if fragIt ∈ (s.netPkts b.2.netPkt).unackedFrags then
    (s.release b.2.netPkt fragIt).deleteUnackedFrag fragIt
  else .error .assertion

/-- Store a fragment under its TxSequence number and list it in its network packet. -/
def storeFrag (id txSeq : ℕ) (frag : LpPacket) : LpReliability :=
  let s := (s.emplace txSeq frag).modifyFrag txSeq fun f => { f with netPkt := id }
  let s := if s.unackedFrags.toList.length = 1 then
      { s with firstUnackedFrag := s.unackedFrags.begin? }
    else s
  s.modifyNetPkt id fun p => { p with unackedFrags := p.unackedFrags ++ [txSeq] }

/-- One turn of the loop of `handleOutgoing`. -/
def sendFrag (id : ℕ) (s : LpReliability) (frag : LpPacket) : Except Fault LpReliability :=
  if frag.has tlvSequence then
    s.assignTxSequence.map fun a =>
      let frag := frag.set tlvTxSequence (encodeSequence a.1)
      let s := a.2.storeFrag id a.1 frag
      { s with sent := s.sent ++ [frag] }
  else .error .assertion

/-- Store the fragments of a network packet, each under a TxSequence number. -/
def handleOutgoing (frags : List LpPacket) (pkt : LpPacket) (isInterest : Bool) :
    Except Fault LpReliability :=
  frags.foldlM (sendFrag s.nNetPkts)
    { s with
      netPkts := Function.update s.netPkts s.nNetPkts { pkt, isInterest }
      nNetPkts := s.nNetPkts + 1 }

/-! ## Incoming packets -/

/-- One turn of the loop over the lost fragments. -/
def resendLost (options : Options) (acc : List ℕ × LpReliability) (txSeq : ℕ) :
    Except Fault (List ℕ × LpReliability) :=
  if txSeq ∈ acc.1 then .ok acc
  else (acc.2.onLpPacketLost options txSeq).map fun r => (acc.1 ++ r.1, r.2)

/-- One turn of the loop over the Acks of an incoming packet. -/
def processAck (options : Options) (s : LpReliability) (ackTxSeq : ℕ) :
    Except Fault LpReliability :=
  match s.unackedFrags.find? ackTxSeq with
  | none => .ok s
  | some _ =>
    (s.findLostLpPackets options ackTxSeq).bind fun found =>
    (found.2.onLpPacketAcknowledged ackTxSeq).bind fun s =>
    (found.1.foldlM (resendLost options) ([], s)).map Prod.snd

/-- Forget the recently received sequences that are older than the RTO. Reading the time of a
sequence that is not in the map puts it there. -/
def purgeRecvSeqs (now rto : ℕ) : List ℕ → OrdMap ℕ ℕ → List ℕ × OrdMap ℕ ℕ
  | [], seqs => ([], seqs)
  | front :: queue, seqs =>
    if (seqs.find? front).getD 0 + rto < now then purgeRecvSeqs now rto queue (seqs.erase front)
    else (front :: queue, seqs.insertNew front 0)

/-- Queue an Ack for a received fragment and look for a duplicate Sequence. Returns whether the
packet is new; `none` stands for a decoding error. -/
def queueAck (pkt : LpPacket) (now rto : ℕ) : Option Bool × LpReliability :=
  if pkt.has tlvFragment ∧ pkt.has tlvTxSequence then
    match pkt.getSequence tlvTxSequence with
    | none => (none, s)
    | some txSeq =>
      let s := { s with ackQueue := s.ackQueue ++ [txSeq] }
      if pkt.has tlvSequence then
        match pkt.getSequence tlvSequence with
        | none => (none, s)
        | some seq =>
          let isDuplicate := (s.recentRecvSeqs.find? seq).isSome
          let (queue, seqs) := purgeRecvSeqs now rto s.recentRecvSeqsQueue s.recentRecvSeqs
          (some (! isDuplicate), { s with
            recentRecvSeqs := seqs.insertNew seq now
            recentRecvSeqsQueue := queue ++ [seq] })
      else (some true, s)
  else (some true, s)

def processIncomingPacket (options : Options) (pkt : LpPacket) (now rto : ℕ) :
    Except Fault (Option Bool × LpReliability) :=
  match pkt.listAck with
  | none => .ok (none, s)
  | some acks => (acks.foldlM (processAck options) s).map fun s => s.queueAck pkt now rto

/-! ## Runs -/

/-- What `sendNetPacket` passes to `handleOutgoing`: at least one fragment, each with a Sequence,
and a packet with a Fragment. -/
structure Outgoing where
  frags : List LpPacket
  pkt : LpPacket
  isInterest : Bool
  nonempty : frags ≠ []
  sequenced : ∀ frag ∈ frags, frag.has tlvSequence
  fragment : pkt.has tlvFragment

inductive Event where
  | handleOutgoing (out : Outgoing)
  | processIncomingPacket (pkt : LpPacket) (now rto : ℕ)
  | rtoExpired (txSeq : ℕ)

/-- One event. The timer of a fragment is stored with it, so only a stored fragment can time
out. -/
def step (options : Options) (s : LpReliability) : Event → Except Fault LpReliability
  | .handleOutgoing out => s.handleOutgoing out.frags out.pkt out.isInterest
  | .processIncomingPacket pkt now rto =>
    (s.processIncomingPacket options pkt now rto).map Prod.snd
  | .rtoExpired txSeq =>
    match s.unackedFrags.find? txSeq with
    | none => .ok s
    | some _ => (s.onLpPacketLost options txSeq).map Prod.snd

def run (options : Options) (s : LpReliability) (events : List Event) :
    Except Fault LpReliability := events.foldlM (step options) s

end LpReliability

end Ns3Ndn
