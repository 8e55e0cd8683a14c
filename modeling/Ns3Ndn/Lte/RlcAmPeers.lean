import Ns3Ndn.Lib.Run
import Ns3Ndn.Lte.RlcAmStatus
import Ns3Ndn.Lte.RlcAmWindow

/-!
# Two LTE RLC AM entities

`lte/model/lte-rlc-am.cc`: entity `a` sends data to entity `b`, which answers with status reports. What is in flight may be lost, arrive
more than once and in any order.

* `LteRlcAm`, `Peers.step`: the code, with the numbers of the PDUs counted without a turn;
* **`run_safe`**: it holds in every run in which no report is older than what `a` learned before.
-/

namespace Ns3Ndn.Lte

open OrdLib ReorderLib SequenceNumber10

/-! ## An entity -/

/-- A PDU on its way. Of the header of a status report the loops read `ACK_SN` and the list. -/
inductive RlcAmPdu where
  | data (p : RlcPdu)
  | status (ackSn : ℕ) (nacks : List ℕ)

def RlcAmPdu.data? : RlcAmPdu → Option RlcPdu
  | .data p => some p
  | .status _ _ => none

inductive RlcAmTimer where
  | pollRetransmit
  | reordering
  | statusProhibit

/-- `LteRlcAm`. -/
structure LteRlcAm where
  tx : RlcAmSender := {}
  rx : RlcAmReceiver RlcPdu := {}
  statusProhibitTimer : Bool := false

namespace LteRlcAm

variable (e : LteRlcAm)

/-- `DoTransmitPdcpPdu`. -/
def transmitPdcpPdu (sdu : List UInt8) : LteRlcAm := { e with tx := e.tx.transmitPdcpPdu sdu }

/-- `DoNotifyTxOpportunity`. A status report goes before data. -/
def notifyTxOpportunity (bytes : ℕ) : Option (LteRlcAm × Option RlcAmPdu) :=
  if bytes < 4 then some (e, none)
  else if e.rx.statusPduRequested && !e.statusProhibitTimer then
    if bytes < e.rx.statusPduBufferSize then some (e, none)
    else (e.rx.statusPdu bytes).map fun r =>
      ({ e with rx := e.rx.statusSent, statusProhibitTimer := true }, some (.status r.1.value r.2.nackSnList))
  else (e.tx.notifyTxOpportunity bytes).map fun r => ({ e with tx := r.1 }, r.2.map .data)

/-- `DoReceivePdu`. -/
def receivePdu : RlcAmPdu → Option LteRlcAm
  | .data p => (e.rx.receiveDataPdu p.header.sequenceNumber p.header.pollingBit p).map fun rx => { e with rx := rx }
  | .status ackSn nacks => (e.tx.receiveStatus (ofValue ackSn) nacks).map fun tx => { e with tx := tx }

def expire : RlcAmTimer → Option LteRlcAm
  | .pollRetransmit =>
    if e.tx.pollRetransmitTimer then e.tx.expirePollRetransmitTimer.map fun tx => { e with tx := tx } else some e
  | .reordering => if e.rx.reorderingTimer then e.rx.expireReorderingTimer.map fun rx => { e with rx := rx } else some e
  | .statusProhibit => some { e with statusProhibitTimer := false }

end LteRlcAm

/-! ## Two entities -/

/-- A PDU that was sent, to `b` or to `a`. Its numbers are less than 1024 from number `base` on, which is that of `VT(A)` or `VR(R)`. -/
structure Flight where
  toB : Bool
  pdu : RlcAmPdu
  base : ℕ

namespace Flight

variable (f : Flight)

/-- The number of a data PDU, or that of `ACK_SN`. -/
def number : ℕ :=
  match f.pdu with
  | .data p => counted f.base p.header.sequenceNumber.value
  | .status ackSn _ => counted f.base ackSn

/-- The numbers that a status report gives as missing. -/
def missing : List ℕ :=
  match f.pdu with
  | .data _ => []
  | .status _ nacks => nacks.map (counted f.base)

/-- What a status report says to be received. -/
def acknowledged : Finset ℕ :=
  match f.pdu with
  | .data _ => ∅
  | .status _ _ => {n ∈ Finset.range f.number | n ∉ f.missing}

end Flight

/-- The two entities and what was sent, each PDU as often as it was. The other fields are for the numbers: the PDUs that `a` built,
the number of its `VT(A)`, and what it learned to be received. -/
structure Peers where
  a : LteRlcAm
  b : LteRlcAm := {}
  sent : List Flight := []
  built : List RlcPdu := []
  acked : ℕ := 0
  learned : Finset ℕ := ∅

/-- What happens to the two entities. PDUs are delivered in any order, each one any number of times. -/
inductive PeersEvent where
  | sdu (p : List UInt8)
  | opportunity (atB : Bool) (bytes : ℕ)
  | deliver (i : ℕ)
  | expire (atB : Bool) (timer : RlcAmTimer)

namespace Peers

def init (maxTxBufferSize : UInt32) (alwaysBigEnough : Bool) : Peers where
  a := { tx := { maxTxBufferSize := maxTxBufferSize, txOpportunityForRetxAlwaysBigEnough := alwaysBigEnough } }

variable (x : Peers)

/-- A data PDU is new if `VT(S)` has moved on. -/
def sendA (r : LteRlcAm × Option RlcAmPdu) : Peers :=
  { x with
    a := r.1
    sent := x.sent ++ r.2.toList.map fun pdu => ⟨true, pdu, x.acked⟩
    built := if r.1.tx.vtS.value = x.a.tx.vtS.value then x.built else x.built ++ (r.2.bind RlcAmPdu.data?).toList }

def sendB (r : LteRlcAm × Option RlcAmPdu) : Peers :=
  { x with
    b := r.1
    sent := x.sent ++ r.2.toList.map fun pdu => ⟨false, pdu, x.b.rx.delivered.length⟩ }

def receiveA (f : Flight) (a : LteRlcAm) : Peers :=
  { x with a := a, acked := counted x.acked a.tx.vtA.value, learned := x.learned ∪ f.acknowledged }

def deliver (f : Flight) : Option Peers :=
  if f.toB then (x.b.receivePdu f.pdu).map fun b => { x with b := b } else (x.a.receivePdu f.pdu).map fun a => x.receiveA f a

def step : PeersEvent → Option Peers
  | .sdu p => some { x with a := x.a.transmitPdcpPdu p }
  | .opportunity false bytes => (x.a.notifyTxOpportunity bytes).map fun r => x.sendA r
  | .opportunity true bytes => (x.b.notifyTxOpportunity bytes).map fun r => x.sendB r
  | .deliver i => match x.sent[i]? with
    | none => some x
    | some f => x.deliver f
  | .expire false timer => (x.a.expire timer).map fun a => { x with a := a }
  | .expire true timer => (x.b.expire timer).map fun b => { x with b := b }

def run (maxTxBufferSize : UInt32) (alwaysBigEnough : Bool) (events : List PeersEvent) : Option Peers :=
  events.foldlM step (init maxTxBufferSize alwaysBigEnough)

end Peers

/-! ## What has to hold -/

def SamePdu (p q : RlcPdu) : Prop :=
  p.data = q.data ∧ { p.header with pollingBit := false } = { q.header with pollingBit := false }

def IsPdu (built : List RlcPdu) (n : ℕ) (p : RlcPdu) : Prop := ∃ q, built[n]? = some q ∧ SamePdu p q

namespace IsPdu

variable {built : List RlcPdu} {n : ℕ} {p : RlcPdu}

theorem lt (h : IsPdu built n p) : n < built.length := by
  obtain ⟨q, hq, -⟩ := h
  exact (List.getElem?_eq_some_iff.mp hq).1

theorem append (h : IsPdu built n p) (l : List RlcPdu) : IsPdu (built ++ l) n p := by
  obtain ⟨q, hq, hsame⟩ := h
  exact ⟨q, by rw [List.getElem?_append_left (List.getElem?_eq_some_iff.mp hq).1, hq], hsame⟩

theorem last (built : List RlcPdu) (p : RlcPdu) : IsPdu (built ++ [p]) built.length p :=
  ⟨p, by rw [List.getElem?_concat_length], rfl, rfl⟩

theorem pollingBit (h : IsPdu built n p) (bit : Bool) : IsPdu built n { p with header := { p.header with pollingBit := bit } } := by
  obtain ⟨q, hq, hdata, hheader⟩ := h
  exact ⟨q, hq, hdata, hheader⟩

theorem sequenceNumber (h : IsPdu built n p) (hnumbers : ∀ n q, built[n]? = some q → q.header.sequenceNumber.value = n % 1024) :
    p.header.sequenceNumber.value = n % 1024 := by
  obtain ⟨q, hq, -, hheader⟩ := h
  have hsn := congrArg RlcHeader.sequenceNumber hheader
  change p.header.sequenceNumber = q.header.sequenceNumber at hsn
  rw [hsn, hnumbers n q hq]

end IsPdu

def Stored (rx : RlcAmReceiver RlcPdu) (built : List RlcPdu) (n : ℕ) : Prop :=
  ∃ p, IsPdu built n p ∧
    (rx.delivered[n]? = some p ∨ rx.delivered.length ≤ n ∧ rx.rxonBuffer.find? (n % 1024) = some ⟨[p], true⟩)

/-- **No PDU is discarded before it was received**: what `VT(A)` has passed and what is in no buffer is stored by the receiver, the other
PDUs are in one of the two buffers, and the counters are the sizes of the buffers. -/
structure Safe (x : Peers) : Prop where
  vtA : x.a.tx.vtA.value = x.acked % 1024
  vtS : x.a.tx.vtS.value = x.built.length % 1024
  window : x.acked ≤ x.built.length ∧ x.built.length ≤ x.acked + 512
  acked : ∀ n < x.acked, Stored x.b.rx x.built n
  cleared : ∀ n, x.acked ≤ n → n < x.built.length → x.a.tx.txedBuffer (n % 1024) = none → x.a.tx.retxBuffer (n % 1024) = none →
    Stored x.b.rx x.built n
  oneBuffer : ∀ n, x.acked ≤ n → n < x.built.length → n ∉ x.learned → ∃ p, IsPdu x.built n p ∧
    (x.a.tx.txedBuffer (n % 1024) = some p ∧ x.a.tx.retxBuffer (n % 1024) = none ∨
      x.a.tx.txedBuffer (n % 1024) = none ∧ x.a.tx.retxBuffer (n % 1024) = some p)
  txedSize : x.a.tx.txedBufferSize = UInt32.ofNat (placesSize x.a.tx.txedBuffer)
  retxSize : x.a.tx.retxBufferSize = UInt32.ofNat (placesSize x.a.tx.retxBuffer)

/-- What the events have to be: an SDU is not empty, a data PDU is at most 512 behind the next one that the receiver waits for, and a
status report is not older than what the sender learned, unless nothing is outstanding. -/
def Timely (x : Peers) : PeersEvent → Prop
  | .sdu p => p ≠ []
  | .deliver i => ∀ f ∈ x.sent[i]?, if f.toB then x.b.rx.delivered.length ≤ f.number + 512
      else x.acked = x.built.length ∨ x.acked ≤ f.number ∧ ∀ n ∈ f.missing, x.acked ≤ n → n ∉ x.learned
  | _ => True

/-! ## The invariant -/

def Flight.Fits (f : Flight) (built : List RlcPdu) (received : OrdMap ℕ RlcPdu) : Prop :=
  match f.toB, f.pdu with
  | true, .data p => ∃ n, f.base ≤ n ∧ n < f.base + 1024 ∧ IsPdu built n p
  | false, .status ackSn nacks => ∃ n, f.base ≤ n ∧ n ≤ f.base + 512 ∧ ackSn = n % 1024 ∧ n ≤ built.length ∧
      (∀ i < f.base, received.find? i ≠ none) ∧ RlcAmReceiver.Reports received f.base n nacks
  | _, _ => False

/-- **Both entities agree on the numbers.** -/
structure Agree (x : Peers) (received : OrdMap ℕ RlcPdu) (k ms h vrX : ℕ) : Prop where
  tx : Outstanding (IsPdu x.built) x.a.tx x.acked x.built.length x.learned
  rx : RlcAmReceiver.Tracks received x.b.rx k ms h vrX
  top : h ≤ x.built.length
  arrived : ∀ n p, received.find? n = some p → IsPdu x.built n p
  learned : ∀ n ∈ x.learned, received.find? n ≠ none
  flights : ∀ f ∈ x.sent, f.Fits x.built received
  numbers : ∀ n q, x.built[n]? = some q → q.header.sequenceNumber.value = n % 1024
  idleA : x.a.rx.statusPduRequested = false ∧ x.a.rx.reorderingTimer = false
  idleB : x.b.tx.retxBufferSize = 0 ∧ x.b.tx.txon.txBufferSize = 0 ∧ x.b.tx.pollRetransmitTimer = false

theorem length_delivered {m : OrdMap ℕ RlcPdu} {s : RlcAmReceiver RlcPdu} {k ms h x : ℕ}
    (ht : RlcAmReceiver.Tracks m s k ms h x) : s.delivered.length = k := by
  have hlength := congrArg List.length ht.split.delivered
  rwa [List.length_map, List.length_map, List.length_range] at hlength

theorem stored_of_find? {m : OrdMap ℕ RlcPdu} {s : RlcAmReceiver RlcPdu} {k ms h x n : ℕ} {built : List RlcPdu}
    (ht : RlcAmReceiver.Tracks m s k ms h x) (harrived : ∀ n p, m.find? n = some p → IsPdu built n p) (hn : m.find? n ≠ none) :
    Stored s built n := by
  obtain ⟨p, hp⟩ := Option.ne_none_iff_exists'.mp hn
  refine ⟨p, harrived n p hp, ?_⟩
  by_cases hlt : n < k
  · left
    have hget : (s.delivered.map some)[n]? = ((List.range k).map m.find?)[n]? := by rw [ht.split.delivered]
    rw [List.getElem?_map, List.getElem?_map, List.getElem?_range hlt, Option.map_some, hp] at hget
    exact Option.map_injective (Option.some_injective _) hget
  · right
    rw [length_delivered ht]
    exact ⟨Nat.not_lt.mp hlt, (ht.split.holds _ _).mpr ⟨n, p, Nat.not_lt.mp hlt, hp, rfl, rfl⟩⟩

theorem Agree.safe {x : Peers} {m : OrdMap ℕ RlcPdu} {k ms h vrX : ℕ} (ha : Agree x m k ms h vrX) : Safe x := by
  have hb := ha.tx.buffered
  have hstored : ∀ n ∈ x.learned, Stored x.b.rx x.built n := fun n hn => stored_of_find? ha.rx ha.arrived (ha.learned n hn)
  have horder := hb.order
  have hplace : ∀ {buffer : ℕ → Option RlcPdu} {n : ℕ} {p : RlcPdu},
      (∀ v p, buffer v = some p → ∃ n, x.acked ≤ n ∧ n < x.built.length ∧ v = n % 1024 ∧ IsPdu x.built n p) →
      x.acked ≤ n → n < x.built.length → buffer (n % 1024) = some p → IsPdu x.built n p := by
    intro buffer n p hin hn hn' hp
    obtain ⟨i, hi, hi', hmod, hpdu⟩ := hin _ p hp
    have heq : i = n := by omega
    rwa [heq] at hpdu
  refine ⟨by rw [ha.tx.vtA]; rfl, by rw [ha.tx.vtS]; rfl, horder, fun n hn => hstored n (hb.before n hn),
    fun n hn hn' htxed hretx => hstored n ((hb.learned_iff n hn hn').mpr ⟨htxed, hretx⟩), fun n hn hn' hlearned => ?_, hb.txedSize,
    hb.retxSize⟩
  rw [hb.learned_iff n hn hn'] at hlearned
  cases htxed : x.a.tx.txedBuffer (n % 1024) with
  | some p =>
    have hnone := (hb.notBoth (n % 1024)).resolve_left (by rw [htxed]; exact Option.some_ne_none p)
    exact ⟨p, hplace hb.txedIn hn hn' htxed, .inl ⟨rfl, hnone⟩⟩
  | none =>
    obtain ⟨p, hp⟩ := Option.ne_none_iff_exists'.mp fun hnone => hlearned ⟨htxed, hnone⟩
    exact ⟨p, hplace hb.retxIn hn hn' hp, .inr ⟨rfl, hp⟩⟩

/-! ## Steps -/

section Steps

variable {x : Peers} {m m' : OrdMap ℕ RlcPdu} {k ms h vrX : ℕ}

theorem Flight.Fits.mono {f : Flight} {built : List RlcPdu} (hf : f.Fits built m) (l : List RlcPdu)
    (hmono : ∀ n, m.find? n ≠ none → m'.find? n ≠ none) : f.Fits (built ++ l) m' := by
  obtain ⟨toB, pdu, base⟩ := f
  cases toB with
  | true =>
    cases pdu with
    | data p =>
      obtain ⟨n, hn, hn', hpdu⟩ := hf
      exact ⟨n, hn, hn', hpdu.append l⟩
    | status ackSn nacks => exact hf
  | false =>
    cases pdu with
    | data p => exact hf
    | status ackSn nacks =>
      obtain ⟨n, hn, hn', hack, hle, hbelow, hr⟩ := hf
      refine ⟨n, hn, hn', hack, ?_, fun i hi => hmono i (hbelow i hi), hr.inside, fun i hi hi' hv => hmono i (hr.others i hi hi' hv)⟩
      rw [List.length_append]
      omega

theorem Agree.sdu (ha : Agree x m k ms h vrX) {p : List UInt8} (hp : p ≠ []) :
    Agree { x with a := x.a.transmitPdcpPdu p } m k ms h vrX :=
  ⟨ha.tx.transmitPdcpPdu hp, ha.rx, ha.top, ha.arrived, ha.learned, ha.flights, ha.numbers, ha.idleA, ha.idleB⟩

theorem Agree.acked_le (ha : Agree x m k ms h vrX) : x.acked ≤ k := by
  by_contra hlt
  exact ha.learned k (ha.tx.buffered.before k (Nat.not_le.mp hlt)) ha.rx.next

theorem Agree.opportunityA (ha : Agree x m k ms h vrX) (bytes : ℕ) :
    ∃ r, x.a.notifyTxOpportunity bytes = some r ∧ Agree (x.sendA r) m k ms h vrX := by
  have horder := ha.tx.buffered.order
  have hsame : ∀ n, m.find? n ≠ none → m.find? n ≠ none := fun n hn => hn
  rw [LteRlcAm.notifyTxOpportunity, ha.idleA.1, Bool.false_and, if_neg Bool.false_ne_true]
  split_ifs with hsmall
  · refine ⟨_, rfl, ?_⟩
    rw [Peers.sendA, if_pos rfl]
    simpa using ha
  rcases ha.tx.notifyTxOpportunity bytes fun n p bit hpdu => hpdu.pollingBit bit with
    ⟨tx, out, hrun, htx, hout⟩ | ⟨tx, p, hrun, hsn, htx⟩
  · -- A PDU of the window, or nothing.
    rw [hrun]
    refine ⟨_, rfl, ?_⟩
    have hvtS : tx.vtS.value = x.a.tx.vtS.value := by rw [htx.vtS, ha.tx.vtS]
    rw [Peers.sendA, if_pos hvtS]
    refine ⟨htx, ha.rx, ha.top, ha.arrived, ha.learned, fun f hf => ?_, ha.numbers, ha.idleA, ha.idleB⟩
    rcases List.mem_append.mp hf with hf | hf
    · exact ha.flights f hf
    · cases out with
      | none => exact absurd hf (by simp)
      | some p =>
        rw [List.mem_singleton.mp hf]
        obtain ⟨n, hn, hn', hpdu⟩ := hout p rfl
        exact ⟨n, hn, by show n < x.acked + 1024; omega, hpdu⟩
  · -- The next PDU.
    rw [hrun]
    refine ⟨_, rfl, ?_⟩
    have hout := htx (IsPdu (x.built ++ [p])) (fun n q hq => hq.append [p]) (.last x.built p)
    have hvtS : ¬ tx.vtS.value = x.a.tx.vtS.value := by
      rw [hout.vtS, ha.tx.vtS, value_numbered, value_numbered]
      omega
    rw [Peers.sendA, if_neg hvtS]
    refine ⟨?_, ha.rx, ?_, fun n q hq => (ha.arrived n q hq).append [p], ha.learned, fun f hf => ?_, fun n q hq => ?_, ha.idleA, ha.idleB⟩
    · show Outstanding (IsPdu (x.built ++ [p])) tx x.acked (x.built ++ [p]).length x.learned
      rwa [List.length_append]
    · show h ≤ (x.built ++ [p]).length
      rw [List.length_append]
      exact ha.top.trans (Nat.le_add_right _ _)
    · rcases List.mem_append.mp hf with hf | hf
      · exact (ha.flights f hf).mono [p] hsame
      · rw [List.mem_singleton.mp hf]
        exact ⟨x.built.length, horder.1, by show x.built.length < x.acked + 1024; omega, .last x.built p⟩
    · change (x.built ++ [p])[n]? = some q at hq
      by_cases hn : n < x.built.length
      · rw [List.getElem?_append_left hn] at hq
        exact ha.numbers n q hq
      · have hlt := (List.getElem?_eq_some_iff.mp hq).1
        rw [List.length_append, List.length_singleton] at hlt
        have heq : n = x.built.length := by omega
        rw [heq, List.getElem?_concat_length, Option.some_inj] at hq
        rw [← hq, heq, hsn]

theorem Agree.opportunityB (ha : Agree x m k ms h vrX) (bytes : ℕ) :
    ∃ r, x.b.notifyTxOpportunity bytes = some r ∧ Agree (x.sendB r) m k ms h vrX := by
  have hnothing : Agree (x.sendB (x.b, none)) m k ms h vrX := by
    rw [Peers.sendB]
    simpa using ha
  rw [LteRlcAm.notifyTxOpportunity]
  split_ifs with hsmall hrequested hfew
  · exact ⟨_, rfl, hnothing⟩
  · exact ⟨_, rfl, hnothing⟩
  · obtain ⟨n, header, hrun, hkn, hnms, hr⟩ := ha.rx.statusPdu_spec bytes
    have horder := ha.rx.order
    have htop := ha.top
    rw [hrun]
    refine ⟨_, rfl, ha.tx, ha.rx.statusSent, ha.top, ha.arrived, ha.learned, fun f hf => ?_, ha.numbers, ha.idleA, ha.idleB⟩
    rcases List.mem_append.mp hf with hf | hf
    · exact ha.flights f hf
    · rw [List.mem_singleton.mp hf]
      refine ⟨n, ?_⟩
      show x.b.rx.delivered.length ≤ n ∧ n ≤ x.b.rx.delivered.length + 512 ∧ n % 1024 = n % 1024 ∧ n ≤ x.built.length ∧
        (∀ i < x.b.rx.delivered.length, m.find? i ≠ none) ∧ RlcAmReceiver.Reports m x.b.rx.delivered.length n header.nackSnList
      rw [length_delivered ha.rx]
      exact ⟨hkn, by omega, rfl, by omega, fun i hi => ha.rx.split.find?_of_lt hi, hr⟩
  · have hidle : x.b.tx.notifyTxOpportunity bytes = some (x.b.tx, none) := by
      rw [RlcAmSender.notifyTxOpportunity, if_neg hsmall, ha.idleB.1, if_neg (by decide), ha.idleB.2.1, if_neg (by decide)]
    rw [hidle]
    exact ⟨_, rfl, hnothing⟩

theorem receiveDataPdu_ofValue (rx : RlcAmReceiver RlcPdu) {sequenceNumber : SequenceNumber10} {n : ℕ}
    (h : sequenceNumber.value = n % 1024) (pollingBit : Bool) (p : RlcPdu) :
    rx.receiveDataPdu sequenceNumber pollingBit p = rx.receiveDataPdu (ofValue n) pollingBit p := by
  have hbase : sequenceNumber.setModulusBase rx.vrR.value = (ofValue n).setModulusBase rx.vrR.value := by
    rw [SequenceNumber10.setModulusBase, h]
    rfl
  rw [RlcAmReceiver.receiveDataPdu, RlcAmReceiver.receiveDataPdu, hbase]

theorem Agree.receiveB (ha : Agree x m k ms h vrX) {p : RlcPdu} {n : ℕ} (hpdu : IsPdu x.built n p) (hn : k ≤ n + 512) :
    ∃ b m' k' ms' h' vrX', x.b.receivePdu (.data p) = some b ∧ Agree { x with b := b } m' k' ms' h' vrX' := by
  have hlt := hpdu.lt
  have horder := ha.tx.buffered.order
  have hacked := ha.acked_le
  have hmono : ∀ i, m.find? i ≠ none → (m.insertNew n p).find? i ≠ none := by
    intro i hi
    obtain ⟨w, hw⟩ := Option.ne_none_iff_exists'.mp hi
    rw [Reorder.find?_insertNew_of_some hw]
    exact Option.some_ne_none w
  have harrived : ∀ i q, (m.insertNew n p).find? i = some q → IsPdu x.built i q := by
    intro i q hq
    rw [OrdMap.find?_insertNew] at hq
    cases hfind : m.find? i with
    | some w =>
      rw [hfind, Option.some_or] at hq
      exact ha.arrived i q (hfind.trans hq)
    | none =>
      rw [hfind, Option.none_or, Option.ite_none_right_eq_some] at hq
      rw [← hq.1, ← Option.some_inj.mp hq.2]
      exact hpdu
  have hrest : ∀ {rx : RlcAmReceiver RlcPdu} {k' ms' h' vrX' : ℕ}, h' ≤ x.built.length →
      RlcAmReceiver.Tracks (m.insertNew n p) rx k' ms' h' vrX' →
      Agree { x with b := { x.b with rx := rx } } (m.insertNew n p) k' ms' h' vrX' := by
    intro rx k' ms' h' vrX' htop hrx
    refine ⟨ha.tx, hrx, htop, harrived, fun i hi => hmono i (ha.learned i hi), fun f hf => ?_, ha.numbers, ha.idleA, ha.idleB⟩
    have hfits := (ha.flights f hf).mono [] hmono
    rwa [List.append_nil] at hfits
  rw [LteRlcAm.receivePdu, receiveDataPdu_ofValue x.b.rx (hpdu.sequenceNumber ha.numbers)]
  by_cases hnk : n < k
  · obtain ⟨rx, hrun, hrx⟩ := ha.rx.receive_behind hn hnk p.header.pollingBit p
    rw [hrun]
    exact ⟨_, _, k, ms, h, vrX, rfl, hrest ha.top hrx⟩
  · obtain ⟨rx, k', ms', vrX', hrun, hrx⟩ := ha.rx.receive_inside (Nat.not_lt.mp hnk) (by omega) p.header.pollingBit p
    rw [hrun]
    exact ⟨_, _, k', ms', max h (n + 1), vrX', rfl, hrest (by have := ha.top; omega) hrx⟩

theorem number_status {base n : ℕ} (nacks : List ℕ) (hn : base ≤ n) (hn' : n ≤ base + 512) :
    (Flight.mk false (.status (n % 1024) nacks) base).number = n := by
  show counted base (n % 1024) = n
  exact counted_mod hn (by omega)

theorem mem_acknowledged {base n i : ℕ} {nacks : List ℕ} (hn : base ≤ n) (hn' : n ≤ base + 512)
    (hr : RlcAmReceiver.Reports m base n nacks) (hi : n ≤ i + 512) :
    i ∈ (Flight.mk false (.status (n % 1024) nacks) base).acknowledged ↔ i < n ∧ i % 1024 ∉ nacks := by
  show i ∈ {j ∈ Finset.range (Flight.mk false (.status (n % 1024) nacks) base).number | j ∉ nacks.map (counted base)} ↔ _
  rw [number_status nacks hn hn', Finset.mem_filter, Finset.mem_range, List.mem_map]
  refine and_congr_right fun hlt => not_congr ⟨?_, fun hmem => ?_⟩
  · rintro ⟨v, hv, hcounted⟩
    obtain ⟨j, hj, hj', hmod⟩ := hr.inside v hv
    rw [hmod, counted_mod hj (by omega)] at hcounted
    rwa [← hcounted, ← hmod]
  · obtain ⟨j, hj, hj', hmod⟩ := hr.inside _ hmem
    have heq : i = j := by omega
    exact ⟨i % 1024, hmem, by rw [hmod, counted_mod hj (by omega), heq]⟩

variable (ha : Agree x m k ms h vrX)

include ha

theorem Agree.receiveA {ackSn base : ℕ} {nacks : List ℕ} (hf : (Flight.mk false (.status ackSn nacks) base).Fits x.built m)
    (htimely : x.acked = x.built.length ∨ x.acked ≤ (Flight.mk false (.status ackSn nacks) base).number ∧
      ∀ n ∈ nacks.map (counted base), x.acked ≤ n → n ∉ x.learned) :
    
    ∃ a, x.a.receivePdu (.status ackSn nacks) = some a ∧
      Agree (x.receiveA ⟨false, .status ackSn nacks, base⟩ a) m k ms h vrX := by
  obtain ⟨n, hn, hn', rfl, hle, hbelow, hr⟩ := hf
  change base ≤ n at hn
  change n ≤ base + 512 at hn'
  change RlcAmReceiver.Reports m base n nacks at hr
  rw [number_status nacks hn hn'] at htimely
  have horder := ha.tx.buffered.order
  -- What the report acknowledges arrived.
  have hreceived : ∀ i ∈ x.learned ∪ (Flight.mk false (.status (n % 1024) nacks) base).acknowledged, m.find? i ≠ none := by
    intro i hi
    rcases Finset.mem_union.mp hi with hi | hi
    · exact ha.learned i hi
    · by_cases hib : i < base
      · exact hbelow i hib
      · obtain ⟨hlt, hnot⟩ := (mem_acknowledged hn hn' hr (by omega)).mp hi
        exact hr.others i (Nat.not_lt.mp hib) hlt hnot
  suffices hsuff : ∃ tx acked', x.a.tx.receiveStatus (ofValue (n % 1024)) nacks = some tx ∧ x.acked ≤ acked' ∧
      Outstanding (IsPdu x.built) tx acked' x.built.length
        (x.learned ∪ (Flight.mk false (.status (n % 1024) nacks) base).acknowledged) by
    obtain ⟨tx, acked', hrun, hacked, htx⟩ := hsuff
    have horder' := htx.buffered.order
    have hcounted : counted x.acked tx.vtA.value = acked' := by
      rw [htx.vtA, value_numbered]
      exact counted_mod hacked (by omega)
    rw [LteRlcAm.receivePdu, hrun]
    refine ⟨_, rfl, ?_, ha.rx, ha.top, ha.arrived, hreceived, ha.flights, ha.numbers, ha.idleA, ha.idleB⟩
    show Outstanding (IsPdu x.built) tx (counted x.acked tx.vtA.value) x.built.length _
    rwa [hcounted]
  have hofValue : ofValue (n % 1024) = ofValue n := by rw [ofValue, ofValue, Nat.mod_mod]
  rw [hofValue]
  rcases htimely with hidle | ⟨hack, hmissing⟩
  · -- Nothing is outstanding.
    have hunion : x.learned ∪ (Flight.mk false (.status (n % 1024) nacks) base).acknowledged = x.learned := by
      refine Finset.union_eq_left.mpr fun i hi => ha.tx.buffered.before i ?_
      have hlt := Finset.mem_range.mp (Finset.mem_of_mem_filter i hi)
      rw [number_status nacks hn hn'] at hlt
      omega
    have htx := ha.tx
    rw [← hidle] at htx
    rw [hunion, ← hidle]
    exact ⟨x.a.tx, x.acked, htx.receiveStatus_idle n nacks, le_rfl, htx⟩
  · have hnacks : ∀ i, x.acked ≤ i → i < n → i % 1024 ∈ nacks → i ∉ x.learned := by
      intro i hi hi' hmem
      obtain ⟨j, hj, hj', hmod⟩ := hr.inside _ hmem
      have heq : counted base (i % 1024) = i := by
        rw [hmod, counted_mod hj (by omega)]
        omega
      exact hmissing i (List.mem_map.mpr ⟨i % 1024, hmem, heq⟩) hi
    obtain ⟨tx, acked', hrun, hacked, htx⟩ := ha.tx.receiveStatus hack hle hnacks
    refine ⟨tx, acked', hrun, hacked, ?_⟩
    have hunion : x.learned ∪ (Flight.mk false (.status (n % 1024) nacks) base).acknowledged =
        x.learned ∪ reported nacks x.acked n := by
      ext i
      rw [Finset.mem_union, Finset.mem_union, mem_reported]
      by_cases hi : x.acked ≤ i
      · rw [mem_acknowledged hn hn' hr (by omega)]
        simp [hi]
      · simp [ha.tx.buffered.before i (Nat.not_le.mp hi)]
    rwa [hunion]

theorem Agree.deliver {f : Flight} (hf : f ∈ x.sent)
    (htimely : if f.toB then x.b.rx.delivered.length ≤ f.number + 512
      else x.acked = x.built.length ∨ x.acked ≤ f.number ∧ ∀ n ∈ f.missing, x.acked ≤ n → n ∉ x.learned) :
    
    ∃ x' m' k' ms' h' vrX', x.deliver f = some x' ∧ Agree x' m' k' ms' h' vrX' := by
  have hfits := ha.flights f hf
  obtain ⟨toB, pdu, base⟩ := f
  cases toB with
  | true =>
    cases pdu with
    | data p =>
      obtain ⟨n, hn, hn', hpdu⟩ := hfits
      have hnumber : (Flight.mk true (.data p) base).number = n := by
        show counted base p.header.sequenceNumber.value = n
        rw [hpdu.sequenceNumber ha.numbers]
        exact counted_mod hn hn'
      rw [hnumber, if_pos rfl, length_delivered ha.rx] at htimely
      obtain ⟨b, m', k', ms', h', vrX', hrun, ha'⟩ := ha.receiveB hpdu htimely
      refine ⟨_, m', k', ms', h', vrX', ?_, ha'⟩
      rw [Peers.deliver, if_pos rfl, hrun]
      rfl
    | status ackSn nacks => exact hfits.elim
  | false =>
    cases pdu with
    | data p => exact hfits.elim
    | status ackSn nacks =>
      rw [if_neg Bool.false_ne_true] at htimely
      obtain ⟨a, hrun, ha'⟩ := ha.receiveA hfits htimely
      refine ⟨_, m, k, ms, h, vrX, ?_, ha'⟩
      rw [Peers.deliver, if_neg Bool.false_ne_true, hrun]
      rfl

theorem Agree.expireA (timer : RlcAmTimer) : ∃ a, x.a.expire timer = some a ∧ Agree { x with a := a } m k ms h vrX := by
  cases timer with
  | pollRetransmit =>
    rw [LteRlcAm.expire]
    split_ifs
    · obtain ⟨tx, hrun, htx⟩ := ha.tx.expire
      rw [hrun]
      exact ⟨_, rfl, htx, ha.rx, ha.top, ha.arrived, ha.learned, ha.flights, ha.numbers, ha.idleA, ha.idleB⟩
    · exact ⟨x.a, rfl, ha⟩
  | reordering =>
    rw [LteRlcAm.expire, ha.idleA.2, if_neg Bool.false_ne_true]
    exact ⟨x.a, rfl, ha⟩
  | statusProhibit => exact ⟨_, rfl, ha.tx, ha.rx, ha.top, ha.arrived, ha.learned, ha.flights, ha.numbers, ha.idleA, ha.idleB⟩

theorem Agree.expireB (timer : RlcAmTimer) :
    ∃ b ms' vrX', x.b.expire timer = some b ∧ Agree { x with b := b } m k ms' h vrX' := by
  cases timer with
  | pollRetransmit =>
    rw [LteRlcAm.expire, ha.idleB.2.2, if_neg Bool.false_ne_true]
    exact ⟨x.b, ms, vrX, rfl, ha⟩
  | reordering =>
    rw [LteRlcAm.expire]
    split_ifs with htimer
    · obtain ⟨rx, ms', vrX', hrun, hrx⟩ := ha.rx.expire htimer
      rw [hrun]
      exact ⟨_, ms', vrX', rfl, ha.tx, hrx, ha.top, ha.arrived, ha.learned, ha.flights, ha.numbers, ha.idleA, ha.idleB⟩
    · exact ⟨x.b, ms, vrX, rfl, ha⟩
  | statusProhibit =>
    exact ⟨_, ms, vrX, rfl, ha.tx, ha.rx, ha.top, ha.arrived, ha.learned, ha.flights, ha.numbers, ha.idleA, ha.idleB⟩

/-- **One step keeps the numbers.** -/
theorem Agree.step {e : PeersEvent} (he : Timely x e) :
    ∃ x' m' k' ms' h' vrX', x.step e = some x' ∧ Agree x' m' k' ms' h' vrX' := by
  cases e with
  | sdu p => exact ⟨_, m, k, ms, h, vrX, rfl, ha.sdu he⟩
  | opportunity atB bytes =>
    cases atB with
    | false =>
      obtain ⟨r, hrun, ha'⟩ := ha.opportunityA bytes
      exact ⟨_, m, k, ms, h, vrX, by rw [Peers.step, hrun, Option.map_some], ha'⟩
    | true =>
      obtain ⟨r, hrun, ha'⟩ := ha.opportunityB bytes
      exact ⟨_, m, k, ms, h, vrX, by rw [Peers.step, hrun, Option.map_some], ha'⟩
  | deliver i =>
    rw [Peers.step]
    cases hf : x.sent[i]? with
    | none => exact ⟨x, m, k, ms, h, vrX, rfl, ha⟩
    | some f => exact ha.deliver (List.mem_of_getElem? hf) (he f hf)
  | expire atB timer =>
    cases atB with
    | false =>
      obtain ⟨a, hrun, ha'⟩ := ha.expireA timer
      exact ⟨_, m, k, ms, h, vrX, by rw [Peers.step, hrun, Option.map_some], ha'⟩
    | true =>
      obtain ⟨b, ms', vrX', hrun, ha'⟩ := ha.expireB timer
      exact ⟨_, m, k, ms', h, vrX', by rw [Peers.step, hrun, Option.map_some], ha'⟩

end Steps

/-! ## Runs -/

def Along (P : Peers → PeersEvent → Prop) (maxTxBufferSize : UInt32) (alwaysBigEnough : Bool) (events : List PeersEvent) : Prop :=
  ∀ pre e, pre ++ [e] <+: events → ∀ x ∈ Peers.run maxTxBufferSize alwaysBigEnough pre, P x e

/-- Fewer than 512 numbers are assigned while a PDU is in flight. -/
def InTime (x : Peers) : PeersEvent → Prop
  | .sdu p => p ≠ []
  | .deliver i => ∀ f ∈ x.sent[i]?, x.built.length < f.number + 512
  | _ => True

instance (x : Peers) : (e : PeersEvent) → Decidable (Timely x e)
  | .sdu _ => inferInstanceAs (Decidable (_ ≠ _))
  | .opportunity _ _ => .isTrue trivial
  | .deliver i => inferInstanceAs (Decidable (∀ f ∈ x.sent[i]?, if f.toB then x.b.rx.delivered.length ≤ f.number + 512
      else x.acked = x.built.length ∨ x.acked ≤ f.number ∧ ∀ n ∈ f.missing, x.acked ≤ n → n ∉ x.learned))
  | .expire _ _ => .isTrue trivial

instance (x : Peers) : (e : PeersEvent) → Decidable (InTime x e)
  | .sdu _ => inferInstanceAs (Decidable (_ ≠ _))
  | .opportunity _ _ => .isTrue trivial
  | .deliver i => inferInstanceAs (Decidable (∀ f ∈ x.sent[i]?, x.built.length < f.number + 512))
  | .expire _ _ => .isTrue trivial

instance (P : Peers → PeersEvent → Prop) [∀ x e, Decidable (P x e)] (maxTxBufferSize : UInt32) (alwaysBigEnough : Bool)
    (events : List PeersEvent) : Decidable (Along P maxTxBufferSize alwaysBigEnough events) :=
  decidable_of_iff _ RunLib.forall_step_iff_forall_fin.symm

theorem agree_init (maxTxBufferSize : UInt32) (alwaysBigEnough : Bool) :
    Agree (Peers.init maxTxBufferSize alwaysBigEnough) .empty 0 0 0 0 where
  tx := ⟨rfl, rfl, rfl, rfl, ⟨by simp [Peers.init], fun v p hp => absurd hp (by simp [Peers.init]),
    fun v p hp => absurd hp (by simp [Peers.init]), fun v => .inl rfl, fun n hn hn' => absurd hn' (by simp [Peers.init]),
    fun n hn => absurd hn (by simp [Peers.init]), fun n hn => absurd hn (by simp [Peers.init]),
    by simp [Peers.init, placesSize, placeSize], by simp [Peers.init, placesSize, placeSize]⟩, false, ⟨.nil, rfl⟩⟩
  rx := RlcAmReceiver.tracks_init
  top := le_rfl
  arrived := fun n p hp => absurd hp (by simp)
  learned := fun n hn => absurd hn (by simp [Peers.init])
  flights := fun f hf => absurd hf (by simp [Peers.init])
  numbers := fun n q hq => absurd hq (by simp [Peers.init])
  idleA := ⟨rfl, rfl⟩
  idleB := ⟨rfl, rfl, rfl⟩

theorem run_agree (maxTxBufferSize : UInt32) (alwaysBigEnough : Bool) (events : List PeersEvent)
    (hevents : Along Timely maxTxBufferSize alwaysBigEnough events) :
    ∃ x m k ms h vrX, Peers.run maxTxBufferSize alwaysBigEnough events = some x ∧ Agree x m k ms h vrX := by
  induction events using List.reverseRecOn with
  | nil => exact ⟨_, .empty, 0, 0, 0, 0, rfl, agree_init maxTxBufferSize alwaysBigEnough⟩
  | append_singleton events e ih =>
    obtain ⟨x, m, k, ms, h, vrX, hx, ha⟩ := ih fun pre e' hpre => hevents pre e' (hpre.trans (List.prefix_append events [e]))
    obtain ⟨x', m', k', ms', h', vrX', hx', ha'⟩ := ha.step (hevents events e List.prefix_rfl x hx)
    refine ⟨x', m', k', ms', h', vrX', ?_, ha'⟩
    rw [Peers.run, List.foldlM_append, ← Peers.run, hx]
    show List.foldlM Peers.step x [e] = some x'
    rw [List.foldlM_cons, hx']
    rfl

/-- A report that arrives after a later one fails the assertion on `m_retxBuffer`. -/
example : (Peers.run 10240 false [.sdu [1], .opportunity false 7, .sdu [2], .opportunity false 7, .sdu [3], .opportunity false 7,
    .deliver 2, .expire true .reordering, .opportunity true 10, .deliver 1, .expire true .statusProhibit, .opportunity true 10,
    .deliver 4, .deliver 3]).isNone = true := by decide +kernel

end Ns3Ndn.Lte
