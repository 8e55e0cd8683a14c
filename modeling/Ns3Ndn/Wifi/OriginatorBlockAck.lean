import Ns3Ndn.Wifi.BlockAckWindow
import Ns3Ndn.Wifi.MacRxMiddle

/-!
# The originator's window

`wifi/model/block-ack-manager.cc`, `originator-block-ack-agreement.cc`: an originator keeps the MPDUs that it sent under an
agreement and that are not acknowledged, in the order of their age, and a window that starts at the first number that is
not acknowledged. MPDUs that the window has passed are old, and are taken from the front of the list.

A new MPDU is put before the first one that is at a greater distance from the start of the window, so before the old ones.

* `Placed`: the MPDUs by the numbers that the originator counts, without a turn;
* `Sound`: what is said of every state; `TxCall.keeps`: the condition; **`run_sound`**.
-/

namespace Ns3Ndn.Wifi

namespace Originator

open BlockAckWindow

/-! ## The code -/

structure Mpdu where
  hdr : WifiMacHeader
  isInFlight : Bool
deriving DecidableEq

inductive MpduStatus where
  | stayInFlight
  | toRetransmit
  | acknowledged
deriving DecidableEq

/-- What the queue says of MPDUs during a notification. -/
structure QueueView where
  isQueued : Mpdu → Bool
  ttlExceeded : Mpdu → Bool

structure Agreement where
  txWindow : BlockAckWindow
  /-- the MPDUs in flight -/
  inFlight : List Mpdu

def init (startingSeq : SequenceNumber) (bufferSize : ℕ) : Option Agreement :=
  if bufferSize ≤ 256 ∧ bufferSize % 16 = 0 then some ⟨.init startingSeq bufferSize, []⟩ else none

def distanceOf (w : BlockAckWindow) (mpdu : Mpdu) : Option ℕ := getDistance mpdu.hdr.sequenceNumber w.winStart

def notifyTransmittedMpdu (w : BlockAckWindow) (mpdu : Mpdu) : Option BlockAckWindow :=
  (distanceOf w mpdu).bind fun distance =>
    if distance ≥ SEQNO_SPACE_HALF_SIZE then some w
    else if distance ≥ w.getWinSize then (w.advance (distance - w.getWinSize + 1)).advanceTxWindow
    else some w

def notifyAckedMpdu (w : BlockAckWindow) (mpdu : Mpdu) : Option BlockAckWindow :=
  (distanceOf w mpdu).bind fun distance =>
    if distance ≥ SEQNO_SPACE_HALF_SIZE then some w else (w.setAt distance).bind advanceTxWindow

def notifyDiscarded (w : BlockAckWindow) (mpdu : Mpdu) : Option BlockAckWindow :=
  (distanceOf w mpdu).bind fun distance =>
    if distance ≥ SEQNO_SPACE_HALF_SIZE then some w else (w.advance (distance + 1)).advanceTxWindow

/-! ### The list -/

/-- The loop of `StorePacket`; `some none` for an MPDU that is there already. -/
def insertMpdu (w : BlockAckWindow) (mpdu : Mpdu) (mpduDist : ℕ) : List Mpdu → Option (Option (List Mpdu))
  | [] => some (some [{ mpdu with isInFlight := true }])
  | m :: rest =>
    if mpdu.hdr.getSequenceControl = m.hdr.getSequenceControl then some none
    else (distanceOf w m).bind fun dist =>
      if mpduDist < dist ∨ mpduDist = dist ∧ mpdu.hdr.fragmentNumber < m.hdr.fragmentNumber then
        some (some ({ mpdu with isInFlight := true } :: m :: rest))
      else (insertMpdu w mpdu mpduDist rest).map fun r => r.map (m :: ·)

/-- The loop of `NotifyDiscardedMpdu`. -/
def removeOld (w : BlockAckWindow) : List Mpdu → Option (List Mpdu)
  | [] => some []
  | m :: rest =>
    (distanceOf w m).bind fun distance =>
      if distance ≥ SEQNO_SPACE_HALF_SIZE then removeOld w rest else some (m :: rest)

section Notifications

variable (s : Agreement)

def storePacket (mpdu : Mpdu) : Option Agreement :=
  (distanceOf s.txWindow mpdu).bind fun mpduDist =>
    if mpduDist ≥ SEQNO_SPACE_HALF_SIZE then some s
    else (insertMpdu s.txWindow mpdu mpduDist s.inFlight).bind fun l =>
      match l with
      | none => some s
      | some l => (notifyTransmittedMpdu s.txWindow mpdu).map fun w => ⟨w, l⟩

def notifyDiscardedMpdu (mpdu : Mpdu) : Option Agreement :=
  if ! mpdu.hdr.isRetry && ! mpdu.isInFlight then some s
  else (distanceOf s.txWindow mpdu).bind fun distance =>
    if distance ≥ SEQNO_SPACE_HALF_SIZE then some s
    else (notifyDiscarded s.txWindow mpdu).bind fun w => (removeOld w s.inFlight).map fun l => ⟨w, l⟩

/-- `HandleInFlightMpdu` for the MPDU between `before` and `after`. The iterator that it returns is at `after`. -/
def handleInFlightMpdu (q : QueueView) (status : MpduStatus) (before : List Mpdu) (mpdu : Mpdu) (after : List Mpdu) :
    Option Agreement :=
  if ! q.isQueued mpdu then some { s with inFlight := before ++ after }
  else if status = .acknowledged then some { s with inFlight := before ++ after }
  else (distanceOf s.txWindow mpdu).bind fun distance =>
    if distance ≥ SEQNO_SPACE_HALF_SIZE then some { s with inFlight := before ++ after }
    else if q.ttlExceeded mpdu then notifyDiscardedMpdu s mpdu
    else if status = .stayInFlight then some s
    else some { s with inFlight := before ++ after }

def findInFlight (seq : SequenceNumber) : List Mpdu → Option (List Mpdu × Mpdu × List Mpdu)
  | [] => none
  | m :: rest =>
    if m.hdr.sequenceNumber = seq then some ([], m, rest)
    else (findInFlight seq rest).map fun r => (m :: r.1, r.2)

def notifyGotAck (q : QueueView) (mpdu : Mpdu) : Option Agreement :=
  (match findInFlight mpdu.hdr.sequenceNumber s.inFlight with
    | none => some s
    | some (before, m, after) => handleInFlightMpdu s q .acknowledged before m after).bind fun s =>
      (notifyAckedMpdu s.txWindow mpdu).map fun w => { s with txWindow := w }

def notifyMissedAck (q : QueueView) (mpdu : Mpdu) : Option Agreement :=
  match findInFlight mpdu.hdr.sequenceNumber s.inFlight with
  | none => some s
  | some (before, m, after) => handleInFlightMpdu s q .toRetransmit before m after

def beforeIterator (rest : List Mpdu) : Option (List Mpdu) :=
  if rest.length ≤ s.inFlight.length then some (s.inFlight.take (s.inFlight.length - rest.length)) else none

end Notifications

def gotLoop (q : QueueView) (received : SequenceNumber → Bool) : List Mpdu → Agreement → Option (Agreement × ℕ × ℕ)
  | [], s => some (s, 0, 0)
  | m :: after, s =>
    (beforeIterator s (m :: after)).bind fun before =>
      if received m.hdr.sequenceNumber then
        (notifyAckedMpdu s.txWindow m).bind fun w =>
          (handleInFlightMpdu { s with txWindow := w } q .acknowledged before m after).bind fun s =>
            (gotLoop q received after s).map fun r => (r.1, r.2.1 + 1, r.2.2)
      else
        (handleInFlightMpdu s q .toRetransmit before m after).bind fun s =>
          (gotLoop q received after s).map fun r => (r.1, r.2.1, r.2.2 + 1)

def missedLoop (q : QueueView) : List Mpdu → Agreement → Option Agreement
  | [], s => some s
  | m :: after, s =>
    (beforeIterator s (m :: after)).bind fun before =>
      (handleInFlightMpdu s q .toRetransmit before m after).bind fun s => missedLoop q after s

def notifyGotBlockAck (s : Agreement) (q : QueueView) (received : SequenceNumber → Bool) : Option (Agreement × ℕ × ℕ) :=
  gotLoop q received s.inFlight s

def notifyMissedBlockAck (s : Agreement) (q : QueueView) : Option Agreement := missedLoop q s.inFlight s

/-! ## The window by places

The originator counts its MPDUs without a turn. The window starts at `start`, and what is in flight or acknowledged is
below `top`. -/

structure Reaches (w : BlockAckWindow) (start top : ℕ) : Prop where
  valid : w.Valid
  size_le : w.getWinSize ≤ 256
  winStart : w.winStart = start % SEQNO_SPACE_SIZE
  start_le : start ≤ top
  top_le : top ≤ start + w.getWinSize
  bits : ∀ i < w.getWinSize, w.bit i = true → start + i < top

structure WindowAt (w : BlockAckWindow) (start top : ℕ) : Prop extends Reaches w start top where
  first : w.bit 0 = false

/-- Places whose bits are not set are not passed, and stay so. -/
def Passes (w w' : BlockAckWindow) (start start' top : ℕ) : Prop :=
  ∀ p, start ≤ p → p < top → w.bit (p - start) = false → start' ≤ p ∧ w'.bit (p - start') = false

section Windows

variable {w w' : BlockAckWindow} {start top n : ℕ} {mpdu : Mpdu}

theorem distanceOf_new (hstart : w.winStart = start % SEQNO_SPACE_SIZE)
    (hseq : mpdu.hdr.sequenceNumber.val = n % SEQNO_SPACE_SIZE) (hn : start ≤ n) (hlt : n < start + SEQNO_SPACE_SIZE) :
    distanceOf w mpdu = some (n - start) := by
  rw [distanceOf, hseq, hstart]
  exact getDistance_mod hn hlt

theorem distanceOf_old (hstart : w.winStart = start % SEQNO_SPACE_SIZE)
    (hseq : mpdu.hdr.sequenceNumber.val = n % SEQNO_SPACE_SIZE) (hn : n < start) (hle : start ≤ n + SEQNO_SPACE_HALF_SIZE) :
    ∃ distance, distanceOf w mpdu = some distance ∧ distance ≥ SEQNO_SPACE_HALF_SIZE := by
  have hhalf : SEQNO_SPACE_HALF_SIZE = 2048 := rfl
  have hfull : SEQNO_SPACE_SIZE = 4096 := rfl
  refine ⟨n + SEQNO_SPACE_SIZE - start, distanceOf_new hstart (n := n + SEQNO_SPACE_SIZE) ?_ (by omega) (by omega), by omega⟩
  rw [hseq, Nat.add_mod_right]

/-- **`AdvanceTxWindow`** moves over the bits that are set. -/
theorem Reaches.advanceTxWindow (h : Reaches w start top) : ∃ w' start', w.advanceTxWindow = some w' ∧
    WindowAt w' start' top ∧ w'.getWinSize = w.getWinSize ∧ start ≤ start' ∧ Passes w w' start start' top := by
  obtain ⟨w', k, hw', hmoved, hzero, hk, hset⟩ := advanceTxWindow_spec h.valid
  have hpos := h.valid.getWinSize_pos
  have htop := h.top_le
  have hstart := h.start_le
  have hle : start + k ≤ top := by
    rcases Nat.eq_zero_or_pos k with rfl | hkpos
    · exact hstart
    · have hlast := h.bits (k - 1) (by omega) (hset (k - 1) (by omega))
      omega
  refine ⟨w', start + k, hw', ⟨⟨hmoved.valid, by rw [hmoved.size]; exact h.size_le, ?_, hle, ?_, fun i hi hbit => ?_⟩, hzero⟩,
    hmoved.size, Nat.le_add_right _ _, fun p hp hptop hclear => ?_⟩
  · rw [hmoved.winStart, h.winStart, Nat.mod_add_mod]
  · rw [hmoved.size]
    omega
  · rw [hmoved.size] at hi
    rw [hmoved.bits i hi] at hbit
    split_ifs at hbit with hin
    have hlt := h.bits (i + k) hin hbit
    omega
  · have hpk : start + k ≤ p := by
      by_contra hlt
      rw [hset (p - start) (by omega)] at hclear
      exact Bool.noConfusion hclear
    refine ⟨hpk, ?_⟩
    have hplace : p - (start + k) + k = p - start := by omega
    rw [hmoved.bits _ (by omega), hplace, hclear, ite_self]

theorem Reaches.advance (h : Reaches w start top) (count top' : ℕ) (htop : top ≤ top') (hcount : start + count ≤ top')
    (hle : top' ≤ start + count + w.getWinSize) : Reaches (w.advance count) (start + count) top' := by
  have hmoved := Moved.advance h.valid count
  refine ⟨hmoved.valid, by rw [hmoved.size]; exact h.size_le, ?_, hcount, by rw [hmoved.size]; exact hle, fun i hi hbit => ?_⟩
  · rw [hmoved.winStart, h.winStart, Nat.mod_add_mod]
  · rw [hmoved.size] at hi
    rw [hmoved.bits i hi] at hbit
    split_ifs at hbit with hin
    have hlt := h.bits (i + count) hin hbit
    omega

variable (h : WindowAt w start top)

include h

/-- **An acknowledgement** of an MPDU that is not old. -/
theorem WindowAt.acked (hseq : mpdu.hdr.sequenceNumber.val = n % SEQNO_SPACE_SIZE) (hn : start ≤ n) (hlt : n < top) :
    ∃ w' start', notifyAckedMpdu w mpdu = some w' ∧ WindowAt w' start' top ∧
      w'.getWinSize = w.getWinSize ∧ start ≤ start' ∧
      ∀ p, p ≠ n → start ≤ p → p < top → w.bit (p - start) = false → start' ≤ p ∧ w'.bit (p - start') = false := by
  have hhalf : SEQNO_SPACE_HALF_SIZE = 2048 := rfl
  have hfull : SEQNO_SPACE_SIZE = 4096 := rfl
  have hsize := h.size_le
  have htop := h.top_le
  obtain ⟨w1, hw1⟩ := setAt_isSome (w := w) (d := n - start) (by omega)
  obtain ⟨-, hstart1, hsize1, -⟩ := setAt_eq_some hw1
  have h1 : Reaches w1 start top := by
    refine ⟨h.valid.setAt hw1, by rw [hsize1]; exact hsize, hstart1.trans h.winStart, h.start_le, by rw [hsize1]; exact htop,
      fun i hi hbit => ?_⟩
    rw [hsize1] at hi
    rw [bit_setAt hw1 hi] at hbit
    split_ifs at hbit with heq
    · omega
    · exact h.bits i hi hbit
  obtain ⟨w', start', hw', hat, hsize', hle, hpass⟩ := h1.advanceTxWindow
  refine ⟨w', start', ?_, hat, hsize'.trans hsize1, hle, fun p hne hp hptop hclear => hpass p hp hptop ?_⟩
  · rw [notifyAckedMpdu, distanceOf_new h.winStart hseq hn (by omega), Option.bind_some, if_neg (by omega), hw1,
      Option.bind_some, hw']
  · rw [bit_setAt hw1 (by omega), if_neg (by omega)]
    exact hclear

theorem WindowAt.acked_old (hseq : mpdu.hdr.sequenceNumber.val = n % SEQNO_SPACE_SIZE) (hn : n < start)
    (hle : start ≤ n + SEQNO_SPACE_HALF_SIZE) : notifyAckedMpdu w mpdu = some w := by
  obtain ⟨distance, hdistance, hold⟩ := distanceOf_old h.winStart hseq hn hle
  rw [notifyAckedMpdu, hdistance, Option.bind_some, if_pos hold]

/-- **A discarded MPDU** that is not old, and the window is behind it. -/
theorem WindowAt.discarded (hseq : mpdu.hdr.sequenceNumber.val = n % SEQNO_SPACE_SIZE) (hn : start ≤ n)
    (hlt : n < start + SEQNO_SPACE_HALF_SIZE) : ∃ w' start', notifyDiscarded w mpdu = some w' ∧
      WindowAt w' start' (max top (n + 1)) ∧ w'.getWinSize = w.getWinSize ∧ n < start' ∧
      ∀ p, n < p → p < top → w.bit (p - start) = false → start' ≤ p ∧ w'.bit (p - start') = false := by
  have hhalf : SEQNO_SPACE_HALF_SIZE = 2048 := rfl
  have hfull : SEQNO_SPACE_SIZE = 4096 := rfl
  have hsize := h.size_le
  have htop := h.top_le
  have hplace : start + (n - start + 1) = n + 1 := by omega
  have h1 := h.toReaches.advance (n - start + 1) (max top (n + 1)) (le_max_left _ _)
    (by rw [hplace]; exact le_max_right _ _) (by omega)
  rw [hplace] at h1
  have hmoved := Moved.advance h.valid (n - start + 1)
  obtain ⟨w', start', hw', hat, hsize', hle, hpass⟩ := h1.advanceTxWindow
  refine ⟨w', start', ?_, hat, hsize'.trans hmoved.size, hle, fun p hp hptop hclear => ?_⟩
  · rw [notifyDiscarded, distanceOf_new h.winStart hseq hn (by omega), Option.bind_some, if_neg (by omega), hw']
  · refine hpass p hp (lt_max_of_lt_left hptop) ?_
    have hback : p - (n + 1) + (n - start + 1) = p - start := by omega
    rw [hmoved.bits _ (by omega), hback, hclear, ite_self]

/-- **A transmitted MPDU** that is not old, and the window reaches it. -/
theorem WindowAt.transmitted (hseq : mpdu.hdr.sequenceNumber.val = n % SEQNO_SPACE_SIZE) (hn : start ≤ n)
    (hlt : n < start + SEQNO_SPACE_HALF_SIZE) : ∃ w' start', notifyTransmittedMpdu w mpdu = some w' ∧
      WindowAt w' start' (max top (n + 1)) ∧ w'.getWinSize = w.getWinSize ∧ start ≤ start' ∧ start' ≤ n := by
  have hhalf : SEQNO_SPACE_HALF_SIZE = 2048 := rfl
  have hfull : SEQNO_SPACE_SIZE = 4096 := rfl
  have hsize := h.size_le
  have htop := h.top_le
  have hpos := h.valid.getWinSize_pos
  rw [notifyTransmittedMpdu, distanceOf_new h.winStart hseq hn (by omega), Option.bind_some, if_neg (by omega)]
  by_cases hin : n - start < w.getWinSize
  · rw [if_neg (by omega)]
    exact ⟨w, start, rfl, ⟨⟨h.valid, hsize, h.winStart, h.start_le.trans (le_max_left _ _), by omega,
      fun i hi hbit => lt_max_of_lt_left (h.bits i hi hbit)⟩, h.first⟩, rfl, le_rfl, hn⟩
  · rw [if_pos (by omega), max_eq_right (by omega : top ≤ n + 1)]
    have hmoved := Moved.advance h.valid (n - start - w.getWinSize + 1)
    have h1 := h.toReaches.advance (n - start - w.getWinSize + 1) (n + 1) (by omega) (by omega) (by omega)
    obtain ⟨w', start', hw', hat, hsize', hle, hpass⟩ := h1.advanceTxWindow
    refine ⟨w', start', hw', hat, hsize'.trans hmoved.size, by omega, (hpass n (by omega) (Nat.lt_succ_self n) ?_).1⟩
    rw [hmoved.bits _ (by omega), if_neg (by omega)]

end Windows

/-! ## The list by places -/

/-- The order of age. -/
def Before (e f : ℕ × Mpdu) : Prop := e.1 < f.1 ∨ e.1 = f.1 ∧ e.2.hdr.fragmentNumber < f.2.hdr.fragmentNumber

/-- MPDUs at their places, below `top` and not more than half of the space behind it. -/
structure FlightAt (l : List Mpdu) (top : ℕ) (flight : List (ℕ × Mpdu)) : Prop where
  eq : l = flight.map Prod.snd
  seq : ∀ e ∈ flight, e.2.hdr.sequenceNumber.val = e.1 % SEQNO_SPACE_SIZE
  sorted : flight.Pairwise Before
  lt_top : ∀ e ∈ flight, e.1 < top
  near : ∀ e ∈ flight, top ≤ e.1 + SEQNO_SPACE_HALF_SIZE
  flags : ∀ e ∈ flight, e.2.isInFlight = true

section Flights

variable {w : BlockAckWindow} {start top top' n : ℕ} {l : List Mpdu} {flight flight' : List (ℕ × Mpdu)} {mpdu : Mpdu}

theorem FlightAt.sublist (h : FlightAt l top flight) (hsub : flight'.Sublist flight) :
    FlightAt (flight'.map Prod.snd) top flight' :=
  ⟨rfl, fun e he => h.seq e (hsub.subset he), h.sorted.sublist hsub, fun e he => h.lt_top e (hsub.subset he),
    fun e he => h.near e (hsub.subset he), fun e he => h.flags e (hsub.subset he)⟩

theorem FlightAt.mono (h : FlightAt l top flight) (htop : top ≤ top')
    (hnear : ∀ e ∈ flight, top' ≤ e.1 + SEQNO_SPACE_HALF_SIZE) : FlightAt l top' flight :=
  ⟨h.eq, h.seq, h.sorted, fun e he => (h.lt_top e he).trans_le htop, hnear, h.flags⟩

theorem getSequenceControl_inj {e f : ℕ × Mpdu} (he : e.2.hdr.sequenceNumber.val = e.1 % SEQNO_SPACE_SIZE)
    (hf : f.2.hdr.sequenceNumber.val = f.1 % SEQNO_SPACE_SIZE) (hplace : e.1 = f.1) :
    e.2.hdr.getSequenceControl = f.2.hdr.getSequenceControl ↔ e.2.hdr.fragmentNumber = f.2.hdr.fragmentNumber := by
  rw [getSequenceControl_eq, getSequenceControl_eq, he, hf, hplace, Nat.add_left_cancel_iff, Fin.val_inj]

/-- **A new MPDU is put at its place**, when none in flight is old. -/
theorem insertMpdu_spec (hstart : w.winStart = start % SEQNO_SPACE_SIZE)
    (hseq : mpdu.hdr.sequenceNumber.val = n % SEQNO_SPACE_SIZE) (hn : start ≤ n)
    (hflight : ∀ e ∈ flight, e.2.hdr.sequenceNumber.val = e.1 % SEQNO_SPACE_SIZE) (hsorted : flight.Pairwise Before)
    (hnew : ∀ e ∈ flight, start ≤ e.1 ∧ e.1 < start + SEQNO_SPACE_SIZE) :
    ∃ r, insertMpdu w mpdu (n - start) (flight.map Prod.snd) = some r ∧ ∀ l, r = some l →
      ∃ flight' : List (ℕ × Mpdu), l = flight'.map Prod.snd ∧ flight'.Pairwise Before ∧
        ∀ e, e ∈ flight' ↔ e = (n, { mpdu with isInFlight := true }) ∨ e ∈ flight := by
  induction flight with
  | nil =>
    refine ⟨_, rfl, fun l hl => ⟨[(n, { mpdu with isInFlight := true })], (Option.some.inj hl).symm, List.pairwise_singleton _ _,
      fun e => ?_⟩⟩
    rw [List.mem_singleton]
    exact (or_iff_left List.not_mem_nil).symm
  | cons f rest ih =>
    obtain ⟨hf, hrest⟩ := List.forall_mem_cons.mp hflight
    obtain ⟨hfnew, hrestnew⟩ := List.forall_mem_cons.mp hnew
    obtain ⟨hfirst, hsorted'⟩ := List.pairwise_cons.mp hsorted
    rw [List.map_cons, insertMpdu]
    by_cases hsame : mpdu.hdr.getSequenceControl = f.2.hdr.getSequenceControl
    · rw [if_pos hsame]
      exact ⟨none, rfl, fun l hl => absurd hl (Option.some_ne_none l).symm⟩
    · rw [if_neg hsame, distanceOf_new hstart hf hfnew.1 hfnew.2, Option.bind_some]
      by_cases hless : n - start < f.1 - start ∨ n - start = f.1 - start ∧ mpdu.hdr.fragmentNumber < f.2.hdr.fragmentNumber
      · rw [if_pos hless]
        refine ⟨_, rfl, fun l hl => ⟨(n, { mpdu with isInFlight := true }) :: f :: rest, (Option.some.inj hl).symm, ?_,
          fun e => List.mem_cons⟩⟩
        have hbefore : Before (n, { mpdu with isInFlight := true }) f := by
          rcases hless with hlt | ⟨heq, hfrag⟩
          · exact .inl (show n < f.1 by omega)
          · exact .inr ⟨show n = f.1 by omega, hfrag⟩
        refine List.pairwise_cons.mpr ⟨List.forall_mem_cons.mpr ⟨hbefore, fun e he => ?_⟩, hsorted⟩
        rcases hbefore with hlt | ⟨heq, hfrag⟩
        · rcases hfirst e he with hlt' | ⟨heq', -⟩
          · exact .inl (hlt.trans hlt')
          · exact .inl (hlt.trans_eq heq')
        · rcases hfirst e he with hlt' | ⟨heq', hfrag'⟩
          · exact .inl (heq.trans_lt hlt')
          · exact .inr ⟨heq.trans heq', hfrag.trans hfrag'⟩
      · rw [if_neg hless]
        obtain ⟨r, hr, hspec⟩ := ih hrest hsorted' hrestnew
        refine ⟨r.map (f.2 :: ·), by rw [hr]; rfl, fun l hl => ?_⟩
        obtain ⟨l', hl', rfl⟩ := Option.map_eq_some_iff.mp hl
        obtain ⟨flight', rfl, hpairwise, hmem⟩ := hspec l' hl'
        refine ⟨f :: flight', rfl, List.pairwise_cons.mpr ⟨fun e he => ?_, hpairwise⟩, fun e => ?_⟩
        · rcases (hmem e).mp he with rfl | he
          · rw [not_or, not_and, not_lt] at hless
            rcases hless.1.lt_or_eq with hlt | heq
            · exact .inl (show f.1 < n by omega)
            · have hplace : n = f.1 := by omega
              have hle := not_lt.mp (hless.2 heq.symm)
              refine .inr ⟨hplace.symm, lt_of_le_of_ne hle fun hfrag => hsame ?_⟩
              exact (getSequenceControl_inj (e := (n, mpdu)) hseq hf hplace).mpr hfrag.symm
          · exact hfirst e he
        · rw [List.mem_cons, hmem, List.mem_cons]
          exact or_left_comm

/-- **Old MPDUs are taken from the front.** -/
theorem removeOld_eq (hstart : w.winStart = start % SEQNO_SPACE_SIZE) (h : FlightAt l top flight) (htop : start ≤ top)
    (hbound : top ≤ start + SEQNO_SPACE_HALF_SIZE) :
    removeOld w l = some ((flight.dropWhile fun e => e.1 < start).map Prod.snd) := by
  have hhalf : SEQNO_SPACE_HALF_SIZE = 2048 := rfl
  have hfull : SEQNO_SPACE_SIZE = 4096 := rfl
  rw [h.eq]
  replace h := h.sublist (List.Sublist.refl flight)
  induction flight with
  | nil => rfl
  | cons e rest ih =>
    have hnear := h.near e List.mem_cons_self
    have hlt := h.lt_top e List.mem_cons_self
    rw [List.map_cons, removeOld]
    by_cases hold : e.1 < start
    · obtain ⟨distance, hdistance, hge⟩ := distanceOf_old hstart (h.seq e List.mem_cons_self) hold (by omega)
      rw [hdistance, Option.bind_some, if_pos hge, ih (h.sublist (List.sublist_cons_self e rest)),
        List.dropWhile_cons, if_pos (decide_eq_true hold)]
    · rw [distanceOf_new hstart (h.seq e List.mem_cons_self) (by omega) (by omega), Option.bind_some, if_neg (by omega),
        List.dropWhile_cons, if_neg (by rwa [decide_eq_true_eq]), List.map_cons]

theorem le_of_mem_dropWhile (hsorted : flight.Pairwise Before) {e : ℕ × Mpdu}
    (he : e ∈ flight.dropWhile fun e => e.1 < start) : start ≤ e.1 := by
  induction flight with
  | nil => cases he
  | cons f rest ih =>
    obtain ⟨hfirst, hsorted⟩ := List.pairwise_cons.mp hsorted
    by_cases hold : f.1 < start
    · rw [List.dropWhile_cons, if_pos (decide_eq_true hold)] at he
      exact ih hsorted he
    · rw [List.dropWhile_cons, if_neg (by rwa [decide_eq_true_eq])] at he
      rcases List.mem_cons.mp he with rfl | he
      · exact not_lt.mp hold
      · rcases hfirst e he with hlt | ⟨heq, -⟩
        · exact (not_lt.mp hold).trans hlt.le
        · exact (not_lt.mp hold).trans_eq heq

end Flights

/-! ## One notification -/

structure Placed (s : Agreement) (start top : ℕ) (flight : List (ℕ × Mpdu)) : Prop where
  window : WindowAt s.txWindow start top
  list : FlightAt s.inFlight top flight

/-- No lifetime ends, or the MPDUs in flight have different places and none of them is acknowledged. -/
def Steady (q : QueueView) (w : BlockAckWindow) (start : ℕ) (flight : List (ℕ × Mpdu)) : Prop :=
  (∀ e ∈ flight, q.ttlExceeded e.2 = false) ∨
    (flight.Pairwise fun e f => e.1 < f.1) ∧ ∀ e ∈ flight, start ≤ e.1 → w.bit (e.1 - start) = false

section Notifications

variable {s : Agreement} {start top n : ℕ} {flight before after : List (ℕ × Mpdu)} {mpdu m : Mpdu} {q : QueueView}

theorem exists_place (start : ℕ) (seq : SequenceNumber) :
    ∃ n, start ≤ n ∧ n < start + SEQNO_SPACE_SIZE ∧ seq.val = n % SEQNO_SPACE_SIZE := by
  have hseq : seq.val < 4096 := seq.isLt
  refine ⟨start + (seq + 4096 - start % 4096) % 4096, Nat.le_add_right _ _, ?_, ?_⟩
  · show start + (seq.val + 4096 - start % 4096) % 4096 < start + 4096
    omega
  · show seq.val = (start + (seq.val + 4096 - start % 4096) % 4096) % 4096
    omega

theorem Placed.storePacket (h : Placed s start top flight) (hseq : mpdu.hdr.sequenceNumber.val = n % SEQNO_SPACE_SIZE)
    (hn : start ≤ n) (hlt : n < start + SEQNO_SPACE_HALF_SIZE) (hnew : ∀ e ∈ flight, start ≤ e.1) :
    ∃ s' start' top' flight', storePacket s mpdu = some s' ∧ Placed s' start' top' flight' ∧ start ≤ start' ∧
      start' ≤ start + SEQNO_SPACE_HALF_SIZE := by
  have hhalf : SEQNO_SPACE_HALF_SIZE = 2048 := rfl
  have hfull : SEQNO_SPACE_SIZE = 4096 := rfl
  have hsize := h.window.size_le
  have htop := h.window.top_le
  obtain ⟨r, hr, hspec⟩ := insertMpdu_spec h.window.winStart hseq hn h.list.seq h.list.sorted
    fun e he => ⟨hnew e he, by have := h.list.lt_top e he; omega⟩
  rw [← h.list.eq] at hr
  rw [Originator.storePacket, distanceOf_new h.window.winStart hseq hn (by omega), Option.bind_some, if_neg (by omega), hr,
    Option.bind_some]
  cases r with
  | none => exact ⟨s, start, top, flight, rfl, h, le_rfl, Nat.le_add_right _ _⟩
  | some l =>
    obtain ⟨flight', rfl, hsorted, hmem⟩ := hspec l rfl
    obtain ⟨w', start', hw', hat, -, hle, hle'⟩ := h.window.transmitted hseq hn hlt
    refine ⟨⟨w', flight'.map Prod.snd⟩, start', max top (n + 1), flight', by rw [hw']; rfl, ⟨hat, ⟨rfl, ?_, hsorted, ?_, ?_, ?_⟩⟩,
      hle, by omega⟩
    · intro e he
      rcases (hmem e).mp he with rfl | he
      · exact hseq
      · exact h.list.seq e he
    · intro e he
      rcases (hmem e).mp he with rfl | he
      · exact lt_max_of_lt_right (Nat.lt_succ_self n)
      · exact lt_max_of_lt_left (h.list.lt_top e he)
    · intro e he
      rcases (hmem e).mp he with rfl | he
      · show max top (n + 1) ≤ n + SEQNO_SPACE_HALF_SIZE
        omega
      · have hge := hnew e he
        omega
    · intro e he
      rcases (hmem e).mp he with rfl | he
      · rfl
      · exact h.list.flags e he

/-- **A discarded MPDU** takes all old ones with it. -/
theorem Placed.notifyDiscardedMpdu (h : Placed s start top flight)
    (hseq : mpdu.hdr.sequenceNumber.val = n % SEQNO_SPACE_SIZE) (hn : start ≤ n) (hlt : n < start + SEQNO_SPACE_HALF_SIZE)
    (hsent : mpdu.hdr.isRetry = true ∨ mpdu.isInFlight = true)
    (hnear : ∀ e ∈ flight, n + 1 ≤ e.1 + SEQNO_SPACE_HALF_SIZE) :
    ∃ s' start', notifyDiscardedMpdu s mpdu = some s' ∧
      Placed s' start' (max top (n + 1)) (flight.dropWhile fun e => e.1 < start') ∧ n < start' ∧
      ∀ p, n < p → p < top → s.txWindow.bit (p - start) = false → start' ≤ p ∧ s'.txWindow.bit (p - start') = false := by
  have hhalf : SEQNO_SPACE_HALF_SIZE = 2048 := rfl
  have hfull : SEQNO_SPACE_SIZE = 4096 := rfl
  obtain ⟨w', start', hw', hat, hsize, hle, hpass⟩ := h.window.discarded hseq hn hlt
  have hsize' := hat.size_le
  have htop' := hat.top_le
  have hlist : FlightAt s.inFlight (max top (n + 1)) flight :=
    h.list.mono (le_max_left _ _) fun e he => max_le (h.list.near e he) (hnear e he)
  have hsent' : (! mpdu.hdr.isRetry && ! mpdu.isInFlight) = false := by
    rcases hsent with hretry | hflight
    · rw [hretry, Bool.not_true, Bool.false_and]
    · rw [hflight, Bool.not_true, Bool.and_false]
  refine ⟨⟨w', (flight.dropWhile fun e => e.1 < start').map Prod.snd⟩, start', ?_,
    ⟨hat, hlist.sublist (List.dropWhile_sublist _)⟩, hle, hpass⟩
  rw [Originator.notifyDiscardedMpdu, hsent', if_neg Bool.false_ne_true, distanceOf_new h.window.winStart hseq hn (by omega),
    Option.bind_some, if_neg (by omega), hw', Option.bind_some,
    removeOld_eq hat.winStart hlist hat.start_le (by omega), Option.map_some]

/-- **`HandleInFlightMpdu`** takes the MPDU from the list, or discards it with all old ones when its lifetime ends. -/
theorem Placed.handleInFlightMpdu (before : List (ℕ × Mpdu)) (e : ℕ × Mpdu) (after : List (ℕ × Mpdu))
    (h : Placed s start top (before ++ e :: after)) (q : QueueView) {status : MpduStatus} (hstatus : status ≠ .stayInFlight) : ∃ s',
      handleInFlightMpdu s q status (before.map Prod.snd) e.2 (after.map Prod.snd) = some s' ∧
        (s'.txWindow = s.txWindow ∧ Placed s' start top (before ++ after) ∨
          status ≠ .acknowledged ∧ q.ttlExceeded e.2 = true ∧ ∃ start', start ≤ e.1 ∧ e.1 < start' ∧
            Placed s' start' top ((before ++ e :: after).dropWhile fun f => f.1 < start') ∧
            ∀ p, e.1 < p → p < top → s.txWindow.bit (p - start) = false → start' ≤ p ∧ s'.txWindow.bit (p - start') = false) := by
  have hhalf : SEQNO_SPACE_HALF_SIZE = 2048 := rfl
  have hfull : SEQNO_SPACE_SIZE = 4096 := rfl
  have hmem : e ∈ before ++ e :: after := List.mem_append_right _ List.mem_cons_self
  have hseq := h.list.seq _ hmem
  have hlt := h.list.lt_top _ hmem
  have hnear := h.list.near _ hmem
  have hsize := h.window.size_le
  have htop := h.window.top_le
  have hstart := h.window.start_le
  have herased : Placed { s with inFlight := before.map Prod.snd ++ after.map Prod.snd } start top (before ++ after) := by
    refine ⟨h.window, ?_⟩
    rw [← List.map_append]
    exact h.list.sublist ((List.Sublist.refl _).append (List.sublist_cons_self _ _))
  rw [Originator.handleInFlightMpdu]
  by_cases hqueued : (! q.isQueued e.2) = true
  · rw [if_pos hqueued]
    exact ⟨_, rfl, .inl ⟨rfl, herased⟩⟩
  by_cases hack : status = .acknowledged
  · rw [if_neg hqueued, if_pos hack]
    exact ⟨_, rfl, .inl ⟨rfl, herased⟩⟩
  rw [if_neg hqueued, if_neg hack]
  by_cases hold : e.1 < start
  · obtain ⟨distance, hdistance, hge⟩ := distanceOf_old h.window.winStart hseq hold (by omega)
    rw [hdistance, Option.bind_some, if_pos hge]
    exact ⟨_, rfl, .inl ⟨rfl, herased⟩⟩
  rw [distanceOf_new h.window.winStart hseq (by omega) (by omega), Option.bind_some, if_neg (by omega)]
  by_cases hexpired : q.ttlExceeded e.2 = true
  · rw [if_pos hexpired]
    have hall : ∀ f ∈ before ++ e :: after, e.1 + 1 ≤ f.1 + SEQNO_SPACE_HALF_SIZE := fun f hf => by
      have hnear' := h.list.near f hf
      omega
    obtain ⟨s', start', hs', hplaced, hle, hpass⟩ :=
      h.notifyDiscardedMpdu hseq (not_lt.mp hold) (by omega) (.inr (h.list.flags _ hmem)) hall
    rw [max_eq_left (show e.1 + 1 ≤ top from hlt)] at hplaced
    exact ⟨s', hs', .inr ⟨hack, hexpired, start', not_lt.mp hold, hle, hplaced, hpass⟩⟩
  · rw [if_neg hexpired, if_neg hstatus]
    exact ⟨_, rfl, .inl ⟨rfl, herased⟩⟩

theorem beforeIterator_self (h : Placed s start top flight) : beforeIterator s (flight.map Prod.snd) = some [] := by
  rw [beforeIterator, ← h.list.eq, if_pos le_rfl, Nat.sub_self, List.take_zero]

theorem Steady.tail {w : BlockAckWindow} {e : ℕ × Mpdu} (h : Steady q w start (e :: flight)) : Steady q w start flight := by
  rcases h with hlive | ⟨hdistinct, hclear⟩
  · exact .inl fun f hf => hlive f (List.mem_cons_of_mem e hf)
  · exact .inr ⟨(List.pairwise_cons.mp hdistinct).2, fun f hf => hclear f (List.mem_cons_of_mem e hf)⟩

/-- **The MPDU at the front** is taken, and the others are as before. -/
theorem Placed.handleFront (h : Placed s start top ((n, m) :: after)) (hsteady : Steady q s.txWindow start ((n, m) :: after))
    (status : MpduStatus) (hstatus : status ≠ .stayInFlight) : ∃ s' start',
      Originator.handleInFlightMpdu s q status [] m (after.map Prod.snd) = some s' ∧ Placed s' start' top after ∧
        start ≤ start' ∧ Steady q s'.txWindow start' after := by
  obtain ⟨s', hs', ⟨hwindow, hplaced⟩ | ⟨-, hexpired, start', hnew, hle, hplaced, hpass⟩⟩ :=
    Placed.handleInFlightMpdu [] (n, m) after h q hstatus
  · exact ⟨s', start, hs', hplaced, le_rfl, by rw [hwindow]; exact hsteady.tail⟩
  · rcases hsteady with hlive | ⟨hdistinct, hclear⟩
    · rw [hlive _ List.mem_cons_self] at hexpired
      exact Bool.noConfusion hexpired
    · obtain ⟨hfirst, hdistinct⟩ := List.pairwise_cons.mp hdistinct
      -- the next MPDUs are not acknowledged, so the window does not pass them
      have hkept : ∀ e ∈ after, start' ≤ e.1 ∧ s'.txWindow.bit (e.1 - start') = false := fun e he => by
        have hmem := List.mem_cons_of_mem (n, m) he
        have hlt := hfirst e he
        exact hpass e.1 hlt (h.list.lt_top e hmem) (hclear e hmem (hnew.trans hlt.le))
      have hdrop : (((n, m) :: after).dropWhile fun e => e.1 < start') = after := by
        rw [List.dropWhile_cons, if_pos (decide_eq_true hle)]
        refine List.dropWhile_eq_self_iff.mpr fun hlen => ?_
        rw [decide_eq_true_eq, not_lt]
        exact (hkept _ (List.getElem_mem hlen)).1
      rw [List.nil_append, hdrop] at hplaced
      exact ⟨s', start', hs', hplaced, hnew.trans hle.le, .inr ⟨hdistinct, fun e he _ => (hkept e he).2⟩⟩

/-- **`NotifyMissedBlockAck`**. -/
theorem Placed.missedLoop (h : Placed s start top flight) (hsteady : Steady q s.txWindow start flight) :
    ∃ s' start', missedLoop q (flight.map Prod.snd) s = some s' ∧ Placed s' start' top [] ∧ start ≤ start' := by
  induction flight generalizing s start with
  | nil => exact ⟨s, start, rfl, h, le_rfl⟩
  | cons e after ih =>
    obtain ⟨s1, start1, hs1, hplaced, hle, hsteady1⟩ := h.handleFront hsteady .toRetransmit MpduStatus.noConfusion
    obtain ⟨s', start', hs', hplaced', hle'⟩ := ih hplaced hsteady1
    refine ⟨s', start', ?_, hplaced', hle.trans hle'⟩
    have hfront := beforeIterator_self h
    rw [List.map_cons] at hfront ⊢
    rw [Originator.missedLoop, hfront, Option.bind_some, hs1, Option.bind_some, hs']

theorem Placed.acked (h : Placed s start top flight) (hseq : mpdu.hdr.sequenceNumber.val = n % SEQNO_SPACE_SIZE)
    (hlt : n < top) (hnear : top ≤ n + SEQNO_SPACE_HALF_SIZE) : ∃ w' start', notifyAckedMpdu s.txWindow mpdu = some w' ∧
      Placed { s with txWindow := w' } start' top flight ∧ start ≤ start' ∧
      ∀ p, p ≠ n → start ≤ p → p < top → s.txWindow.bit (p - start) = false → start' ≤ p ∧ w'.bit (p - start') = false := by
  by_cases hold : n < start
  · exact ⟨s.txWindow, start, h.window.acked_old hseq hold (h.window.start_le.trans hnear), h, le_rfl,
      fun p _ hp _ hclear => ⟨hp, hclear⟩⟩
  · obtain ⟨w', start', hw', hat, -, hle, hpass⟩ := h.window.acked hseq (not_lt.mp hold) hlt
    exact ⟨w', start', hw', ⟨hat, h.list⟩, hle, hpass⟩

/-- **`NotifyGotBlockAck`**. -/
theorem Placed.gotLoop (h : Placed s start top flight) (hsteady : Steady q s.txWindow start flight)
    (received : SequenceNumber → Bool) : ∃ r start', gotLoop q received (flight.map Prod.snd) s = some r ∧
      Placed r.1 start' top [] ∧ start ≤ start' := by
  induction flight generalizing s start with
  | nil => exact ⟨(s, 0, 0), start, rfl, h, le_rfl⟩
  | cons e after ih =>
    have hfront := beforeIterator_self h
    rw [List.map_cons] at hfront ⊢
    rw [Originator.gotLoop, hfront, Option.bind_some]
    by_cases hreceived : received e.2.hdr.sequenceNumber = true
    · rw [if_pos hreceived]
      have hmem : e ∈ e :: after := List.mem_cons_self
      obtain ⟨w', start0, hw', hplaced0, hle0, hpass⟩ := h.acked (h.list.seq e hmem) (h.list.lt_top e hmem) (h.list.near e hmem)
      obtain ⟨s1, hs1, ⟨hwindow, hplaced⟩ | ⟨hack, -⟩⟩ :=
        Placed.handleInFlightMpdu [] e after hplaced0 q (show MpduStatus.acknowledged ≠ .stayInFlight from MpduStatus.noConfusion)
      · have hsteady1 : Steady q s1.txWindow start0 after := by
          rcases hsteady with hlive | ⟨hdistinct, hclear⟩
          · exact .inl fun f hf => hlive f (List.mem_cons_of_mem e hf)
          · obtain ⟨hfirst, hdistinct⟩ := List.pairwise_cons.mp hdistinct
            refine .inr ⟨hdistinct, fun f hf hge => ?_⟩
            have hmem := List.mem_cons_of_mem e hf
            rw [hwindow]
            exact (hpass f.1 (hfirst f hf).ne' (hle0.trans hge) (h.list.lt_top f hmem)
              (hclear f hmem (hle0.trans hge))).2
        obtain ⟨r, start', hr, hplaced', hle'⟩ := ih hplaced hsteady1
        rw [hw', Option.bind_some]
        rw [List.map_nil] at hs1
        rw [hs1, Option.bind_some, hr]
        exact ⟨_, start', rfl, hplaced', hle0.trans hle'⟩
      · exact absurd rfl hack
    · rw [if_neg hreceived]
      obtain ⟨s1, start1, hs1, hplaced, hle, hsteady1⟩ := h.handleFront hsteady .toRetransmit MpduStatus.noConfusion
      obtain ⟨r, start', hr, hplaced', hle'⟩ := ih hplaced hsteady1
      rw [hs1, Option.bind_some, hr]
      exact ⟨_, start', rfl, hplaced', hle.trans hle'⟩

theorem findInFlight_spec (seq : SequenceNumber) (flight : List (ℕ × Mpdu)) :
    (findInFlight seq (flight.map Prod.snd) = none ∧ ∀ e ∈ flight, e.2.hdr.sequenceNumber ≠ seq) ∨
      ∃ before e after, flight = before ++ e :: after ∧ e.2.hdr.sequenceNumber = seq ∧
        findInFlight seq (flight.map Prod.snd) = some (before.map Prod.snd, e.2, after.map Prod.snd) := by
  induction flight with
  | nil => exact .inl ⟨rfl, fun e he => absurd he List.not_mem_nil⟩
  | cons f rest ih =>
    rw [List.map_cons, findInFlight]
    by_cases hseq : f.2.hdr.sequenceNumber = seq
    · rw [if_pos hseq]
      exact .inr ⟨[], f, rest, rfl, hseq, rfl⟩
    · rw [if_neg hseq]
      rcases ih with ⟨hnone, hall⟩ | ⟨before, e, after, rfl, he, hfound⟩
      · rw [hnone]
        exact .inl ⟨rfl, List.forall_mem_cons.mpr ⟨hseq, hall⟩⟩
      · rw [hfound]
        exact .inr ⟨f :: before, e, after, rfl, he, rfl⟩

/-- **`NotifyGotAck`** for an MPDU in flight. -/
theorem Placed.notifyGotAck (h : Placed s start top flight) (q : QueueView)
    (hmem : ∃ e ∈ flight, e.2.hdr.sequenceNumber = mpdu.hdr.sequenceNumber) : ∃ s' start' flight',
      notifyGotAck s q mpdu = some s' ∧ Placed s' start' top flight' ∧ start ≤ start' := by
  obtain ⟨f, hf, hseq⟩ := hmem
  rcases findInFlight_spec mpdu.hdr.sequenceNumber flight with ⟨-, hall⟩ | ⟨before, e, after, rfl, he, hfound⟩
  · exact absurd hseq (hall f hf)
  · have hmem : e ∈ before ++ e :: after := List.mem_append_right _ List.mem_cons_self
    obtain ⟨s1, hs1, ⟨-, hplaced⟩ | ⟨hack, -⟩⟩ :=
      Placed.handleInFlightMpdu before e after h q (show MpduStatus.acknowledged ≠ .stayInFlight from MpduStatus.noConfusion)
    · obtain ⟨w', start', hw', hplaced', hle, -⟩ := hplaced.acked (he ▸ h.list.seq e hmem : mpdu.hdr.sequenceNumber.val = _)
        (h.list.lt_top e hmem) (h.list.near e hmem)
      rw [← h.list.eq] at hfound
      refine ⟨_, start', _, ?_, hplaced', hle⟩
      rw [Originator.notifyGotAck, hfound]
      dsimp only
      rw [hs1, Option.bind_some, hw', Option.map_some]
    · exact absurd rfl hack

/-- **`NotifyMissedAck`**. -/
theorem Placed.notifyMissedAck (h : Placed s start top flight) (q : QueueView) (mpdu : Mpdu) : ∃ s' start' flight',
    notifyMissedAck s q mpdu = some s' ∧ Placed s' start' top flight' ∧ start ≤ start' := by
  rw [Originator.notifyMissedAck, h.list.eq]
  rcases findInFlight_spec mpdu.hdr.sequenceNumber flight with ⟨hnone, -⟩ | ⟨before, e, after, rfl, he, hfound⟩
  · rw [hnone]
    exact ⟨s, start, flight, rfl, h, le_rfl⟩
  · rw [hfound]
    obtain ⟨s', hs', ⟨-, hplaced⟩ | ⟨-, -, start', hnew, hle, hplaced, -⟩⟩ :=
      Placed.handleInFlightMpdu before e after h q (show MpduStatus.toRetransmit ≠ .stayInFlight from MpduStatus.noConfusion)
    · exact ⟨s', start, _, hs', hplaced, le_rfl⟩
    · exact ⟨s', start', _, hs', hplaced, hnew.trans hle.le⟩

end Notifications

/-! ## Runs -/

def distance (s : Agreement) (m : Mpdu) : ℕ :=
  (m.hdr.sequenceNumber + SEQNO_SPACE_SIZE - s.txWindow.winStart) % SEQNO_SPACE_SIZE

def isOld (s : Agreement) (m : Mpdu) : Bool := SEQNO_SPACE_HALF_SIZE ≤ distance s m

/-- An MPDU before another one: old ones are before the others, and each part is in increasing order. -/
def InOrder (s : Agreement) (m m' : Mpdu) : Prop :=
  isOld s m = true ∧ isOld s m' = false ∨
    isOld s m = isOld s m' ∧ (distance s m < distance s m' ∨
      distance s m = distance s m' ∧ m.hdr.fragmentNumber < m'.hdr.fragmentNumber)

/-- **What is said of every state.** -/
structure Sound (s : Agreement) : Prop where
  sorted : s.inFlight.Pairwise (InOrder s)
  inWindow : ∀ m ∈ s.inFlight, isOld s m = false → (s.txWindow.getAt (distance s m)).isSome = true
  first : s.txWindow.getAt 0 = some false

def Forward (s s' : Agreement) : Prop :=
  ∃ k ≤ SEQNO_SPACE_HALF_SIZE, s'.txWindow.winStart = (s.txWindow.winStart + k) % SEQNO_SPACE_SIZE

inductive TxCall where
  | storePacket (mpdu : Mpdu)
  | notifyGotAck (q : QueueView) (mpdu : Mpdu)
  | notifyMissedAck (q : QueueView) (mpdu : Mpdu)
  | notifyGotBlockAck (q : QueueView) (received : SequenceNumber → Bool)
  | notifyMissedBlockAck (q : QueueView)
  | notifyDiscardedMpdu (mpdu : Mpdu)

def call (s : Agreement) : TxCall → Option Agreement
  | .storePacket mpdu => storePacket s mpdu
  | .notifyGotAck q mpdu => notifyGotAck s q mpdu
  | .notifyMissedAck q mpdu => notifyMissedAck s q mpdu
  | .notifyGotBlockAck q received => (notifyGotBlockAck s q received).map Prod.fst
  | .notifyMissedBlockAck q => notifyMissedBlockAck s q
  | .notifyDiscardedMpdu mpdu => notifyDiscardedMpdu s mpdu

def runFrom (s : Agreement) : List TxCall → Option Agreement
  | [] => some s
  | c :: rest => (call s c).bind fun s => runFrom s rest

/-- No lifetime ends, or the MPDUs in flight have different numbers and are not acknowledged. -/
def steady (s : Agreement) (q : QueueView) : Bool :=
  (s.inFlight.all fun m => ! q.ttlExceeded m) ||
    (decide (s.inFlight.map fun m => m.hdr.sequenceNumber).Nodup &&
      s.inFlight.all fun m => isOld s m || ! s.txWindow.bit (distance s m))

/-- **The condition**: no new MPDU is sent while there is an old one in flight. An acknowledgement is for an MPDU in flight, a
lifetime does not end for one of several MPDUs with one number or with an acknowledged one behind it, and an MPDU that is
discarded is in flight, old, or not half of the space ahead of an old one. -/
def TxCall.keeps (s : Agreement) : TxCall → Bool
  | .storePacket mpdu => isOld s mpdu || s.inFlight.all fun m => ! isOld s m
  | .notifyGotAck _ mpdu => s.inFlight.any fun m => m.hdr.sequenceNumber = mpdu.hdr.sequenceNumber
  | .notifyMissedAck _ _ => true
  | .notifyGotBlockAck q _ => steady s q
  | .notifyMissedBlockAck q => steady s q
  | .notifyDiscardedMpdu mpdu =>
    isOld s mpdu || decide (mpdu ∈ s.inFlight) ||
      s.inFlight.all fun m => ! isOld s m || decide (distance s mpdu + SEQNO_SPACE_HALF_SIZE < distance s m)

def TxCall.keepsFrom (s : Agreement) : List TxCall → Bool
  | [] => true
  | c :: rest => c.keeps s && (call s c).all fun s => keepsFrom s rest

section Runs

variable {s s' : Agreement} {start top start' top' n : ℕ} {flight flight' : List (ℕ × Mpdu)} {m mpdu : Mpdu} {q : QueueView}

section

variable (h : Placed s start top flight)

include h

theorem Placed.distance_eq (hseq : m.hdr.sequenceNumber.val = n % SEQNO_SPACE_SIZE) (hn : start ≤ n)
    (hlt : n < start + SEQNO_SPACE_SIZE) : distance s m = n - start := by
  have heq := distanceOf_new h.window.winStart hseq hn hlt
  rw [distanceOf, getDistance, if_pos ⟨m.hdr.sequenceNumber.isLt, h.window.valid.winStart_lt⟩] at heq
  exact Option.some.inj heq

theorem Placed.distance_flight {e : ℕ × Mpdu} (he : e ∈ flight) :
    (isOld s e.2 = true ∧ e.1 < start ∧ distance s e.2 = e.1 + SEQNO_SPACE_SIZE - start) ∨
      (isOld s e.2 = false ∧ start ≤ e.1 ∧ distance s e.2 = e.1 - start) := by
  have hhalf : SEQNO_SPACE_HALF_SIZE = 2048 := rfl
  have hfull : SEQNO_SPACE_SIZE = 4096 := rfl
  have hseq := h.list.seq e he
  have hlt := h.list.lt_top e he
  have hnear := h.list.near e he
  have hstart := h.window.start_le
  have htop := h.window.top_le
  have hsize := h.window.size_le
  by_cases hold : e.1 < start
  · have hdistance := h.distance_eq (n := e.1 + SEQNO_SPACE_SIZE) (by rw [hseq, Nat.add_mod_right]) (by omega) (by omega)
    refine .inl ⟨?_, hold, hdistance⟩
    rw [isOld, hdistance, decide_eq_true_eq]
    omega
  · have hdistance := h.distance_eq hseq (not_lt.mp hold) (by omega)
    refine .inr ⟨?_, not_lt.mp hold, hdistance⟩
    rw [isOld, hdistance, decide_eq_false_iff_not]
    omega

theorem Placed.inOrder {e f : ℕ × Mpdu} (he : e ∈ flight) (hf : f ∈ flight) (hbefore : Before e f) : InOrder s e.2 f.2 := by
  have hfull : SEQNO_SPACE_SIZE = 4096 := rfl
  have hhalf : SEQNO_SPACE_HALF_SIZE = 2048 := rfl
  have hnear := h.list.near e he
  have hstart := h.window.start_le
  rcases h.distance_flight he with ⟨heold, helt, hedist⟩ | ⟨heold, hele, hedist⟩
  · rcases h.distance_flight hf with ⟨hfold, hflt, hfdist⟩ | ⟨hfold, hfle, hfdist⟩
    · refine .inr ⟨heold.trans hfold.symm, ?_⟩
      rw [hedist, hfdist]
      rcases hbefore with hlt | ⟨heq, hfrag⟩
      · exact .inl (by omega)
      · exact .inr ⟨by rw [heq], hfrag⟩
    · exact .inl ⟨heold, hfold⟩
  · rcases h.distance_flight hf with ⟨hfold, hflt, hfdist⟩ | ⟨hfold, hfle, hfdist⟩
    · rcases hbefore with hlt | ⟨heq, -⟩
      · omega
      · omega
    · refine .inr ⟨heold.trans hfold.symm, ?_⟩
      rw [hedist, hfdist]
      rcases hbefore with hlt | ⟨heq, hfrag⟩
      · exact .inl (by omega)
      · exact .inr ⟨by rw [heq], hfrag⟩

/-- **MPDUs at their places are in order.** -/
theorem Placed.sound : Sound s := by
  refine ⟨?_, fun m hm hnew => ?_, ?_⟩
  · rw [h.list.eq, List.pairwise_map]
    refine h.list.sorted.imp_of_mem fun he hf hbefore => h.inOrder he hf hbefore
  · rw [h.list.eq] at hm
    obtain ⟨e, he, rfl⟩ := List.mem_map.mp hm
    have hlt := h.list.lt_top e he
    have htop := h.window.top_le
    rcases h.distance_flight he with ⟨hold, -⟩ | ⟨-, hle, hdistance⟩
    · rw [hold] at hnew
      exact Bool.noConfusion hnew
    · rw [hdistance, getAt_eq h.window.valid (by omega)]
      rfl
  · rw [getAt_eq h.window.valid h.window.valid.getWinSize_pos, h.window.first]

theorem Placed.forward (h' : Placed s' start' top' flight') (hle : start ≤ start')
    (hle' : start' ≤ start + SEQNO_SPACE_HALF_SIZE) : Forward s s' := by
  refine ⟨start' - start, by omega, ?_⟩
  rw [h'.window.winStart, h.window.winStart, Nat.mod_add_mod, Nat.add_sub_cancel' hle]

theorem Placed.steady (hsteady : steady s q = true) : Steady q s.txWindow start flight := by
  rw [Originator.steady, h.list.eq, List.map_map, Bool.or_eq_true, Bool.and_eq_true, decide_eq_true_eq, List.all_map, List.all_map,
    List.all_eq_true, List.all_eq_true] at hsteady
  rcases hsteady with hlive | ⟨hdistinct, hclear⟩
  · exact .inl fun e he => (Bool.not_eq_true' _).mp (hlive e he)
  · refine .inr ⟨?_, fun e he hge => ?_⟩
    · have hboth := h.list.sorted.and (List.pairwise_map.mp hdistinct)
      refine hboth.imp_of_mem fun he hf hand => ?_
      rcases hand.1 with hlt | ⟨heq, -⟩
      · exact hlt
      · refine absurd (Fin.ext ?_) hand.2
        show _ = _
        rw [Function.comp_apply, Function.comp_apply, h.list.seq _ he, h.list.seq _ hf, heq]
    · have hbit := hclear e he
      rw [Function.comp_apply, Bool.or_eq_true, Bool.not_eq_true'] at hbit
      rcases h.distance_flight he with ⟨-, hlt, -⟩ | ⟨hnew, -, hdistance⟩
      · omega
      · rw [hnew, hdistance] at hbit
        exact hbit.resolve_left Bool.false_ne_true

theorem Placed.exists_place (mpdu : Mpdu) : ∃ n, start ≤ n ∧ n < start + SEQNO_SPACE_SIZE ∧
    mpdu.hdr.sequenceNumber.val = n % SEQNO_SPACE_SIZE ∧ distance s mpdu = n - start := by
  obtain ⟨n, hn, hlt, hseq⟩ := Originator.exists_place start mpdu.hdr.sequenceNumber
  exact ⟨n, hn, hlt, hseq, h.distance_eq hseq hn hlt⟩

end

theorem isOld_iff : isOld s m = true ↔ SEQNO_SPACE_HALF_SIZE ≤ distance s m := decide_eq_true_iff

section

variable (h : Placed s start top flight)

include h

theorem Placed.distanceOf_eq (m : Mpdu) : distanceOf s.txWindow m = some (distance s m) := by
  obtain ⟨n, hn, hlt, hseq, hdistance⟩ := h.exists_place m
  rw [hdistance, distanceOf_new h.window.winStart hseq hn hlt]

/-- **A call of `NotifyDiscardedMpdu`** that meets the condition, and what is left in flight. -/
theorem Placed.discard (hc : TxCall.keeps s (.notifyDiscardedMpdu mpdu) = true) :
    ∃ s' start' top' flight', Originator.notifyDiscardedMpdu s mpdu = some s' ∧ Placed s' start' top' flight' ∧ start ≤ start' ∧
      start' ≤ start + SEQNO_SPACE_HALF_SIZE ∧
      ((mpdu.hdr.isRetry = true ∨ mpdu.isInFlight = true) → isOld s mpdu = false → ∀ m ∈ s'.inFlight, isOld s' m = false) := by
  have hhalf : SEQNO_SPACE_HALF_SIZE = 2048 := rfl
  have hfull : SEQNO_SPACE_SIZE = 4096 := rfl
  have htop := h.window.top_le
  have hsize := h.window.size_le
  by_cases hsent : (! mpdu.hdr.isRetry && ! mpdu.isInFlight) = true
  · refine ⟨s, start, top, flight, ?_, h, le_rfl, Nat.le_add_right _ _, fun hsent' => ?_⟩
    · rw [Originator.notifyDiscardedMpdu, if_pos hsent]
    · rw [Bool.and_eq_true, Bool.not_eq_true', Bool.not_eq_true'] at hsent
      rw [hsent.1, hsent.2, or_self] at hsent'
      exact Bool.noConfusion hsent'
  by_cases hold : isOld s mpdu = true
  · refine ⟨s, start, top, flight, ?_, h, le_rfl, Nat.le_add_right _ _, fun _ hnew => ?_⟩
    · rw [Originator.notifyDiscardedMpdu, if_neg hsent, h.distanceOf_eq, Option.bind_some, if_pos (isOld_iff.mp hold)]
    · rw [hold] at hnew
      exact Bool.noConfusion hnew
  · obtain ⟨n, hn, hlt, hseq, hdistance⟩ := h.exists_place mpdu
    have hnear : ∀ e ∈ flight, n + 1 ≤ e.1 + SEQNO_SPACE_HALF_SIZE := by
      intro e he
      have henear := h.list.near e he
      rw [TxCall.keeps, Bool.or_eq_true, Bool.or_eq_true, decide_eq_true_eq, List.all_eq_true] at hc
      rcases (or_assoc.mp hc).resolve_left hold with hmem | hall
      · rw [h.list.eq] at hmem
        obtain ⟨f, hf, rfl⟩ := List.mem_map.mp hmem
        have hflt := h.list.lt_top f hf
        rcases h.distance_flight hf with ⟨hfold, -⟩ | ⟨-, hfle, hfdist⟩
        · exact absurd hfold hold
        · omega
      · have he' := hall e.2 (by rw [h.list.eq]; exact List.mem_map_of_mem he)
        rw [Bool.or_eq_true, Bool.not_eq_true', decide_eq_true_eq] at he'
        rw [isOld_iff] at hold
        rcases h.distance_flight he with ⟨heold, helt, hedist⟩ | ⟨-, hele, -⟩
        · rw [heold] at he'
          have hfar := he'.resolve_left Bool.noConfusion
          omega
        · omega
    rw [isOld_iff] at hold
    rw [Bool.and_eq_true, Bool.not_eq_true', Bool.not_eq_true', not_and_or, Bool.not_eq_false, Bool.not_eq_false] at hsent
    obtain ⟨s', start', hs', h', hle, -⟩ := h.notifyDiscardedMpdu hseq hn (by omega) hsent hnear
    have hstart' := h'.window.start_le
    refine ⟨s', start', _, _, hs', h', by omega, by omega, fun _ _ m hm => ?_⟩
    rw [h'.list.eq] at hm
    obtain ⟨e, he, rfl⟩ := List.mem_map.mp hm
    rcases h'.distance_flight he with ⟨-, helt, -⟩ | ⟨hnew, -⟩
    · exact absurd (le_of_mem_dropWhile h.list.sorted he) (not_le.mpr helt)
    · exact hnew

/-- **One call** that meets the condition. -/
theorem Placed.call {c : TxCall} (hc : c.keeps s = true) :
    ∃ s' start' top' flight', call s c = some s' ∧ Placed s' start' top' flight' ∧ start ≤ start' ∧
      start' ≤ start + SEQNO_SPACE_HALF_SIZE := by
  have hhalf : SEQNO_SPACE_HALF_SIZE = 2048 := rfl
  have hbound : ∀ {s1 start1 flight1}, Placed s1 start1 top flight1 → start1 ≤ start + SEQNO_SPACE_HALF_SIZE := by
    intro s1 start1 flight1 h1
    have hstart := h1.window.start_le
    have htop := h.window.top_le
    have hsize := h.window.size_le
    omega
  cases c with
  | storePacket mpdu =>
    obtain ⟨n, hn, hlt, hseq, hdistance⟩ := h.exists_place mpdu
    by_cases hold : isOld s mpdu = true
    · refine ⟨s, start, top, flight, ?_, h, le_rfl, Nat.le_add_right _ _⟩
      show Originator.storePacket s mpdu = some s
      rw [Originator.storePacket, h.distanceOf_eq, Option.bind_some, if_pos (isOld_iff.mp hold)]
    · rw [TxCall.keeps, Bool.or_eq_true, List.all_eq_true] at hc
      rw [isOld_iff, hdistance] at hold
      refine h.storePacket hseq hn (by omega) fun e he => ?_
      have hnew := hc.resolve_left (by rw [isOld_iff, hdistance]; exact hold) e.2
        (by rw [h.list.eq]; exact List.mem_map_of_mem he)
      rcases h.distance_flight he with ⟨hold', -⟩ | ⟨-, hle, -⟩
      · rw [hold'] at hnew
        exact Bool.noConfusion hnew
      · exact hle
  | notifyGotAck q mpdu =>
    have hmem : ∃ e ∈ flight, e.2.hdr.sequenceNumber = mpdu.hdr.sequenceNumber := by
      obtain ⟨m, hm, hseq⟩ := List.any_eq_true.mp hc
      rw [h.list.eq] at hm
      obtain ⟨e, he, rfl⟩ := List.mem_map.mp hm
      exact ⟨e, he, of_decide_eq_true hseq⟩
    obtain ⟨s', start', flight', hs', hplaced, hle⟩ := h.notifyGotAck q hmem
    exact ⟨s', start', top, flight', hs', hplaced, hle, hbound hplaced⟩
  | notifyMissedAck q mpdu =>
    obtain ⟨s', start', flight', hs', hplaced, hle⟩ := h.notifyMissedAck q mpdu
    exact ⟨s', start', top, flight', hs', hplaced, hle, hbound hplaced⟩
  | notifyGotBlockAck q received =>
    obtain ⟨r, start', hr, hplaced, hle⟩ := h.gotLoop (h.steady hc) received
    refine ⟨r.1, start', top, [], ?_, hplaced, hle, hbound hplaced⟩
    show (Originator.notifyGotBlockAck s q received).map Prod.fst = some r.1
    rw [Originator.notifyGotBlockAck, h.list.eq, hr, Option.map_some]
  | notifyMissedBlockAck q =>
    obtain ⟨s', start', hs', hplaced, hle⟩ := h.missedLoop (h.steady hc)
    refine ⟨s', start', top, [], ?_, hplaced, hle, hbound hplaced⟩
    show Originator.notifyMissedBlockAck s q = some s'
    rw [Originator.notifyMissedBlockAck, h.list.eq, hs']
  | notifyDiscardedMpdu mpdu =>
    obtain ⟨s', start', top', flight', hs', hplaced, hle, hle', -⟩ := h.discard hc
    exact ⟨s', start', top', flight', hs', hplaced, hle, hle'⟩

theorem Placed.run {calls : List TxCall} (hcalls : TxCall.keepsFrom s calls = true) :
    ∃ s' start' top' flight', runFrom s calls = some s' ∧ Placed s' start' top' flight' := by
  induction calls generalizing s start top flight with
  | nil => exact ⟨s, start, top, flight, rfl, h⟩
  | cons c rest ih =>
    rw [TxCall.keepsFrom, Bool.and_eq_true] at hcalls
    obtain ⟨s1, start1, top1, flight1, hs1, hplaced, -⟩ := h.call hcalls.1
    rw [hs1, Option.all_some] at hcalls
    obtain ⟨s', start', top', flight', hs', hplaced'⟩ := ih hplaced hcalls.2
    refine ⟨s', start', top', flight', ?_, hplaced'⟩
    rw [runFrom, hs1, Option.bind_some, hs']

end

theorem Placed.init {startingSeq : SequenceNumber} {bufferSize : ℕ} (hpos : 0 < bufferSize)
    (hs : init startingSeq bufferSize = some s) : Placed s startingSeq startingSeq [] := by
  rw [Originator.init, Option.ite_none_right_eq_some] at hs
  obtain rfl := Option.some.inj hs.2
  have hvalid := Valid.init startingSeq.isLt hpos
  refine ⟨⟨⟨hvalid, ?_, (Nat.mod_eq_of_lt startingSeq.isLt).symm, le_rfl, Nat.le_add_right _ _, fun i _ hbit => ?_⟩,
    bit_init _ _ _⟩, ⟨rfl, ?_, List.Pairwise.nil, ?_, ?_, ?_⟩⟩
  · rw [getWinSize_init]
    exact hs.1.1
  · rw [bit_init] at hbit
    exact Bool.noConfusion hbit
  all_goals exact fun e he => absurd he List.not_mem_nil

end Runs

/-- **The list is in order and in the window** in every state that is reached, the window moves forward, and a discarded MPDU
that is not old leaves no old one in flight. -/
theorem run_sound (startingSeq : SequenceNumber) (bufferSize : ℕ) (hpos : 0 < bufferSize) (s0 : Agreement)
    (hinit : init startingSeq bufferSize = some s0) (calls : List TxCall) (hcalls : TxCall.keepsFrom s0 calls = true) :
    ∃ s, runFrom s0 calls = some s ∧ Sound s ∧ ∀ c : TxCall, c.keeps s = true → ∃ s', call s c = some s' ∧ Sound s' ∧
      Forward s s' ∧ ∀ mpdu, c = .notifyDiscardedMpdu mpdu → (mpdu.hdr.isRetry = true ∨ mpdu.isInFlight = true) →
        isOld s mpdu = false → ∀ m ∈ s'.inFlight, isOld s' m = false := by
  obtain ⟨s, start, top, flight, hs, h⟩ := (Placed.init hpos hinit).run hcalls
  refine ⟨s, hs, h.sound, fun c hc => ?_⟩
  obtain ⟨s', start', top', flight', hs', h', hle, hle'⟩ := h.call hc
  refine ⟨s', hs', h'.sound, h.forward h' hle hle', ?_⟩
  rintro mpdu rfl hsent hnew
  obtain ⟨s1, -, -, -, hs1, -, -, -, hpost⟩ := h.discard hc
  obtain rfl := Option.some.inj (hs'.symm.trans hs1)
  exact hpost hsent hnew

def sampleMpdu (seq : SequenceNumber) : Mpdu := ⟨MacRxMiddle.sampleWhole seq, false⟩

/-- The numbers turn, and an MPDU beyond the window moves it. -/
theorem run_sound_turn : ∃ s0, init 4090 16 = some s0 ∧
    ∃ s, runFrom s0 [.storePacket (sampleMpdu 4090), .storePacket (sampleMpdu 3), .storePacket (sampleMpdu 15)] = some s ∧
      Sound s ∧ ∀ c : TxCall, c.keeps s = true → ∃ s', call s c = some s' ∧ Sound s' ∧
        Forward s s' ∧ ∀ mpdu, c = .notifyDiscardedMpdu mpdu → (mpdu.hdr.isRetry = true ∨ mpdu.isInFlight = true) →
          isOld s mpdu = false → ∀ m ∈ s'.inFlight, isOld s' m = false :=
  ⟨⟨.init 4090 16, []⟩, rfl, run_sound 4090 16 (by decide) ⟨.init 4090 16, []⟩ rfl
    [.storePacket (sampleMpdu 4090), .storePacket (sampleMpdu 3), .storePacket (sampleMpdu 15)] (by decide)⟩

/-- An MPDU that the window has passed is in flight, and a new one is put before it. When the new one is discarded, the loop
stops at once, and the old one stays. -/
theorem not_run_sound : ((init 0 16).bind fun s => runFrom s [.storePacket (sampleMpdu 0), .storePacket (sampleMpdu 17),
      .storePacket (sampleMpdu 18)]).map (fun s => s.inFlight.map fun m => (m.hdr.sequenceNumber.val, isOld s m)) =
        some [(18, false), (0, true), (17, false)] ∧
    ((init 0 16).bind fun s => runFrom s [.storePacket (sampleMpdu 0), .storePacket (sampleMpdu 17),
      .storePacket (sampleMpdu 19), .notifyDiscardedMpdu { sampleMpdu 17 with isInFlight := true }]).map (fun s =>
        s.inFlight.map fun m => (m.hdr.sequenceNumber.val, isOld s m)) = some [(19, false), (0, true), (17, true)] := by
  refine ⟨?_, ?_⟩
  · decide
  · decide

end Originator

end Ns3Ndn.Wifi
