import Ns3Ndn.Lte.RlcSegmentation

/-!
# Reassembly in the LTE radio link control

`ReassembleAndDeliver` of `lte/model/lte-rlc-um.cc` and `lte-rlc-am.cc`: the data of a PDU is split by its length indicators, and
the framing information says whether the first piece continues the SDU that was kept, and whether the last piece is to be kept.
After a loss the kept beginning is dropped. The two modes differ in one thing: without a loss and without a kept beginning, a PDU
that continues an SDU is an internal error in acknowledged mode.

* **`reassembleAndDeliver_spec`**: it reads the frame that the PDU carries.
-/

namespace Ns3Ndn.Lte

open FramingLib

inductive ReassemblingState where
  | waitingS0Full
  | waitingSiSf
  deriving DecidableEq, Repr

/-- The reassembly variables. What was passed to `ReceivePdcpPdu` is in `delivered`, and `internalError` is set where the code logs
an internal error. -/
structure Reassembler where
  reassemblingState : ReassemblingState := .waitingS0Full
  keepS0 : Option (List UInt8) := none
  expectedSeqNumber : SequenceNumber10 := .ofValue 0
  sdusBuffer : List (List UInt8) := []
  delivered : List (List UInt8) := []
  internalError : Bool := false
  deriving DecidableEq, Repr

/-- The list of SDUs of a packet, and whether a length indicator asked for too much. -/
def splitSdus : List Bool → List ℕ → List UInt8 → Option (List (List UInt8) × Bool)
  | [], _, _ => none
  | false :: _, _, packet => some ([packet], false)
  | true :: _, [], _ => none
  | true :: extensionBits, lengthIndicator :: lengthIndicators, packet =>
    (splitSdus extensionBits lengthIndicators (packet.drop lengthIndicator)).map fun r =>
      (packet.take lengthIndicator :: r.1, r.2 || decide (lengthIndicator ≥ packet.length))

namespace Reassembler

variable (r : Reassembler)

def deliverAll : Reassembler := { r with delivered := r.delivered ++ r.sdusBuffer, sdusBuffer := [] }

/-- The loop that runs while there is more than one SDU. -/
def deliverFull : Reassembler :=
  { r with delivered := r.delivered ++ r.sdusBuffer.dropLast, sdusBuffer := r.sdusBuffer.getLast?.toList }

def keepFirst : Option Reassembler :=
  match r.sdusBuffer with
  | [] => none
  | s0 :: rest => some { r with keepS0 := some s0, sdusBuffer := rest }

def discardFirst : Option Reassembler :=
  match r.sdusBuffer with
  | [] => none
  | _ :: rest => some { r with sdusBuffer := rest }

/-- The first SDU of the list is added to the kept one. -/
def extendKept : Option Reassembler :=
  match r.keepS0, r.sdusBuffer with
  | some s0, si :: rest => some { r with keepS0 := some (s0 ++ si), sdusBuffer := rest }
  | _, _ => none

def deliverKept : Option Reassembler := r.keepS0.map fun s0 => { r with delivered := r.delivered ++ [s0] }

def error : Reassembler := { r with internalError := true }

def waitFor (state : ReassemblingState) : Reassembler := { r with reassemblingState := state }

/-- Nothing was kept before the SDUs of the list. -/
def startOver (framingInfo : ℕ) : Option Reassembler :=
  match framingInfo with
  | 0x00 => some (r.waitFor .waitingS0Full).deliverAll
  | 0x01 => (r.waitFor .waitingSiSf).deliverFull.keepFirst
  | 0x02 => (r.waitFor .waitingS0Full).discardFirst.map deliverAll
  | 0x03 =>
    (r.waitFor (if r.sdusBuffer.length = 1 then .waitingS0Full else .waitingSiSf)).discardFirst.bind fun r =>
      if r.sdusBuffer.length > 0 then r.deliverFull.keepFirst else some r
  | _ => some r.error

def continueKept (framingInfo : ℕ) : Option Reassembler :=
  match framingInfo with
  | 0x02 => ((r.waitFor .waitingS0Full).extendKept.bind deliverKept).map deliverAll
  | 0x03 =>
    if r.sdusBuffer.length = 1 then (r.waitFor .waitingSiSf).extendKept
    else ((r.waitFor .waitingSiSf).extendKept.bind deliverKept).bind fun r => r.deliverFull.keepFirst
  | _ => some r.error

def reassemble (mode : RlcMode) (expectedSnLost : Bool) (framingInfo : ℕ) : Option Reassembler :=
  match expectedSnLost, r.reassemblingState with
  | false, .waitingS0Full =>
    match mode with
    | .um => r.startOver framingInfo
    | .am => if framingInfo = 0x02 ∨ framingInfo = 0x03 then some r.error else r.startOver framingInfo
  | false, .waitingSiSf => r.continueKept framingInfo
  | true, .waitingS0Full => r.startOver framingInfo
  | true, .waitingSiSf => { r with keepS0 := none }.startOver framingInfo

def reassembleAndDeliver (mode : RlcMode) (pdu : RlcPdu) : Option Reassembler :=
  let currSeqNumber := pdu.header.sequenceNumber
  let expectedSnLost : Bool := currSeqNumber.value ≠ r.expectedSeqNumber.value
  let expectedSeqNumber := if expectedSnLost then currSeqNumber.add 1 else r.expectedSeqNumber.add 1
  (splitSdus pdu.header.extensionBits pdu.header.lengthIndicators pdu.data).bind fun sdus =>
    { r with
      expectedSeqNumber := expectedSeqNumber
      sdusBuffer := r.sdusBuffer ++ sdus.1
      internalError := r.internalError || sdus.2 }.reassemble mode expectedSnLost pdu.header.framingInfo

end Reassembler

theorem splitSdus_eq (p : List UInt8) (pieces : List (List UInt8)) (hne : ∀ x ∈ p :: pieces, x ≠ []) :
    splitSdus (List.replicate pieces.length true ++ [false]) ((p :: pieces).dropLast.map List.length) (p :: pieces).flatten =
      some (p :: pieces, false) := by
  induction pieces generalizing p with
  | nil => simp [splitSdus]
  | cons q pieces ih =>
    have hq := ih q fun x hx => hne x (List.mem_cons_of_mem p hx)
    have hlen : ¬ p.length ≥ (p :: q :: pieces).flatten.length := by
      have hpos := List.length_pos_iff.mpr (hne q (List.mem_cons_of_mem p List.mem_cons_self))
      simp only [List.flatten_cons, List.length_append]
      omega
    show (splitSdus _ _ ((p ++ (q :: pieces).flatten).drop p.length)).map _ = _
    rw [List.drop_left]
    show (splitSdus (List.replicate pieces.length true ++ [false]) ((q :: pieces).dropLast.map List.length)
      (q :: pieces).flatten).map _ = _
    rw [hq, Option.map_some, decide_eq_false hlen, List.flatten_cons, List.take_left]
    rfl

theorem RlcPdu.Carries.split {pdu : RlcPdu} {f : Frame UInt8} (h : pdu.Carries f) :
    splitSdus pdu.header.extensionBits pdu.header.lengthIndicators pdu.data = some (f.pieces, false) := by
  obtain ⟨p, pieces, hp⟩ := List.exists_cons_of_ne_nil h.ne_nil
  rw [h.extensionBits, h.lengthIndicators, h.data, hp]
  exact splitSdus_eq p pieces (hp ▸ h.nonempty)

/-! ## Reading a frame -/

namespace Reassembler

variable {r : Reassembler}

def Waits (r : Reassembler) (kept : Option (List UInt8)) : Prop :=
  r.sdusBuffer = [] ∧ match kept with
    | none => r.reassemblingState = .waitingS0Full
    | some k => r.reassemblingState = .waitingSiSf ∧ r.keepS0 = some k

def Reads (r : Reassembler) (kept : Option (List UInt8)) (messages : List (List UInt8)) (r' : Reassembler) : Prop :=
  r'.Waits kept ∧ r'.delivered = r.delivered ++ messages ∧ r'.internalError = r.internalError ∧
    r'.expectedSeqNumber = r.expectedSeqNumber

theorem deliverFull_keepFirst {l : List (List UInt8)} {k : List UInt8} (hsdus : r.sdusBuffer = l) (hlast : l.getLast? = some k) :
    r.deliverFull.keepFirst =
      some { r with delivered := r.delivered ++ l.dropLast, keepS0 := some k, sdusBuffer := [] } := by
  rw [keepFirst, deliverFull, hsdus, hlast]
  rfl

variable {f : Frame UInt8}

theorem startOver_spec (hne : f.pieces ≠ []) (hsdus : r.sdusBuffer = f.pieces) :
    ∃ r', r.startOver ((if f.continues then 2 else 0) + if f.more then 1 else 0) = some r' ∧
      Reads r (f.read none).2 (f.read none).1 r' := by
  obtain ⟨continues, pieces, more⟩ := f
  obtain ⟨p, pieces, rfl⟩ := List.exists_cons_of_ne_nil hne
  change r.sdusBuffer = p :: pieces at hsdus
  cases continues with
  | false =>
    cases more with
    | false => exact ⟨_, rfl, ⟨rfl, rfl⟩, by simp [deliverAll, waitFor, hsdus, Frame.read], rfl, rfl⟩
    | true =>
      have hlast : (p :: pieces).getLast? = some ((p :: pieces).getLast hne) := List.getLast?_eq_some_getLast hne
      refine ⟨_, deliverFull_keepFirst hsdus hlast, ?_, rfl, rfl, rfl⟩
      show Waits _ (p :: pieces).getLast?
      rw [hlast]
      exact ⟨rfl, rfl, rfl⟩
  | true =>
    have hdiscard : ∀ state, (r.waitFor state).discardFirst =
        some { r with reassemblingState := state, sdusBuffer := pieces } := by
      intro state
      rw [discardFirst, waitFor, hsdus]
    cases more with
    | false =>
      refine ⟨{ r with reassemblingState := .waitingS0Full, delivered := r.delivered ++ pieces, sdusBuffer := [] }, ?_, ⟨rfl, rfl⟩,
        rfl, rfl, rfl⟩
      show ((r.waitFor .waitingS0Full).discardFirst).map deliverAll = _
      rw [hdiscard]
      rfl
    | true =>
      show ∃ r', ((r.waitFor (if r.sdusBuffer.length = 1 then .waitingS0Full else .waitingSiSf)).discardFirst.bind fun r =>
        if r.sdusBuffer.length > 0 then r.deliverFull.keepFirst else some r) = some r' ∧
          Reads r pieces.getLast? pieces.dropLast r'
      rw [hdiscard, hsdus, Option.bind_some]
      cases pieces with
      | nil => exact ⟨_, rfl, ⟨rfl, rfl⟩, (List.append_nil _).symm, rfl, rfl⟩
      | cons q pieces =>
        have hlast : (q :: pieces).getLast? = some ((q :: pieces).getLast (List.cons_ne_nil _ _)) :=
          List.getLast?_eq_some_getLast _
        have hmany : (p :: q :: pieces).length ≠ 1 := by simp
        rw [if_neg hmany]
        refine ⟨_, (if_pos (Nat.succ_pos _)).trans (deliverFull_keepFirst rfl hlast), ?_, rfl, rfl, rfl⟩
        rw [hlast]
        exact ⟨rfl, rfl, rfl⟩

theorem continueKept_spec {k : List UInt8} (hcont : f.continues = true) (hne : f.pieces ≠ [])
    (hsdus : r.sdusBuffer = f.pieces) (hkept : r.keepS0 = some k) :
    ∃ r', r.continueKept ((if f.continues then 2 else 0) + if f.more then 1 else 0) = some r' ∧
      Reads r (f.read (some k)).2 (f.read (some k)).1 r' := by
  obtain ⟨continues, pieces, more⟩ := f
  obtain ⟨p, pieces, rfl⟩ := List.exists_cons_of_ne_nil hne
  change continues = true at hcont
  change r.sdusBuffer = p :: pieces at hsdus
  subst hcont
  have hextend : ∀ state, (r.waitFor state).extendKept =
      some { r with reassemblingState := state, keepS0 := some (k ++ p), sdusBuffer := pieces } := by
    intro state
    rw [extendKept, waitFor, hsdus, hkept]
  cases more with
  | false =>
    refine ⟨{ r with
      reassemblingState := .waitingS0Full
      keepS0 := some (k ++ p)
      delivered := r.delivered ++ (k ++ p) :: pieces
      sdusBuffer := [] }, ?_, ⟨rfl, rfl⟩, rfl, rfl, rfl⟩
    show ((r.waitFor .waitingS0Full).extendKept.bind deliverKept).map deliverAll = _
    rw [hextend]
    simp [deliverKept, deliverAll]
  | true =>
    show ∃ r', (if r.sdusBuffer.length = 1 then (r.waitFor .waitingSiSf).extendKept
      else ((r.waitFor .waitingSiSf).extendKept.bind deliverKept).bind fun r => r.deliverFull.keepFirst) = some r' ∧
        Reads r ((k ++ p) :: pieces).getLast? ((k ++ p) :: pieces).dropLast r'
    rw [hsdus, hextend]
    cases pieces with
    | nil => exact ⟨_, rfl, ⟨rfl, rfl, rfl⟩, (List.append_nil _).symm, rfl, rfl⟩
    | cons q pieces =>
      have hlast : (q :: pieces).getLast? = some ((q :: pieces).getLast (List.cons_ne_nil _ _)) :=
        List.getLast?_eq_some_getLast _
      have hlast' : ((k ++ p) :: q :: pieces).getLast? = some ((q :: pieces).getLast (List.cons_ne_nil _ _)) := by
        rw [List.getLast?_cons_cons, hlast]
      refine ⟨{ r with
        reassemblingState := .waitingSiSf
        keepS0 := some ((q :: pieces).getLast (List.cons_ne_nil _ _))
        delivered := r.delivered ++ (k ++ p) :: (q :: pieces).dropLast
        sdusBuffer := [] }, ?_, ?_, rfl, rfl, rfl⟩
      · rw [if_neg (by simp), Option.bind_some]
        rw [deliverKept, Option.map_some, Option.bind_some, deliverFull_keepFirst rfl hlast]
        simp
      · rw [hlast']
        exact ⟨rfl, rfl, rfl⟩

theorem reassemble_idle {mode : RlcMode} {framingInfo : ℕ} (h : r.reassemblingState = .waitingS0Full)
    (ham : mode = .am → ¬ (framingInfo = 0x02 ∨ framingInfo = 0x03)) :
    r.reassemble mode false framingInfo = r.startOver framingInfo := by
  rw [reassemble.eq_def, h]
  cases mode with
  | um => rfl
  | am => exact if_neg (ham rfl)

theorem reassemble_waiting {mode : RlcMode} {framingInfo : ℕ} (h : r.reassemblingState = .waitingSiSf) :
    r.reassemble mode false framingInfo = r.continueKept framingInfo := by
  rw [reassemble.eq_def, h]

/-- After a loss the beginning that was kept is dropped, if there was one. -/
theorem reassemble_lost (mode : RlcMode) (framingInfo : ℕ) :
    ∃ k, r.reassemble mode true framingInfo = { r with keepS0 := k }.startOver framingInfo := by
  obtain ⟨state, keepS0, expectedSeqNumber, sdusBuffer, delivered, internalError⟩ := r
  cases state with
  | waitingS0Full => exact ⟨keepS0, rfl⟩
  | waitingSiSf => exact ⟨none, rfl⟩

/-- **A reassembler reads the frame that a PDU carries.** What it kept counts only if the PDU is the expected one. -/
theorem reassembleAndDeliver_spec (mode : RlcMode) {pdu : RlcPdu} {kept : Option (List UInt8)}
    (hw : r.Waits kept) (hp : pdu.Carries f)
    (hnext : pdu.header.sequenceNumber.value = r.expectedSeqNumber.value →
      (kept.isSome = true → f.continues = true) ∧ (mode = .am → f.continues = true → kept.isSome = true)) :
    ∃ r', r.reassembleAndDeliver mode pdu = some r' ∧
      r'.Waits (f.read (if pdu.header.sequenceNumber.value = r.expectedSeqNumber.value then kept else none)).2 ∧
      r'.delivered = r.delivered ++
        (f.read (if pdu.header.sequenceNumber.value = r.expectedSeqNumber.value then kept else none)).1 ∧
      r'.internalError = r.internalError ∧ r'.expectedSeqNumber.value = (pdu.header.sequenceNumber.value + 1) % 1024 := by
  have hinfo := hp.framingInfo
  obtain ⟨hnil, hstate⟩ := hw
  rw [reassembleAndDeliver, hp.split, Option.bind_some, hnil, Bool.or_false, List.nil_append, hinfo]
  by_cases hsn : pdu.header.sequenceNumber.value = r.expectedSeqNumber.value
  · obtain ⟨hcont, ham⟩ := hnext hsn
    have hlost : decide (pdu.header.sequenceNumber.value ≠ r.expectedSeqNumber.value) = false := decide_eq_false (not_not.mpr hsn)
    rw [hlost, if_neg Bool.false_ne_true, if_pos hsn]
    have hexpected : (r.expectedSeqNumber.add 1).value = (pdu.header.sequenceNumber.value + 1) % 1024 := by
      rw [hsn]
      rfl
    cases kept with
    | none =>
      change r.reassemblingState = .waitingS0Full at hstate
      obtain ⟨r', hr', hw', hdelivered, herror, hexp⟩ := startOver_spec (f := f)
        (r := { r with expectedSeqNumber := r.expectedSeqNumber.add 1, sdusBuffer := f.pieces }) hp.ne_nil rfl
      refine ⟨r', ?_, hw', hdelivered, herror, (congrArg _ hexp).trans hexpected⟩
      refine (reassemble_idle (r := { r with expectedSeqNumber := r.expectedSeqNumber.add 1, sdusBuffer := f.pieces }) hstate
        fun hmode => ?_).trans hr'
      have hfalse : f.continues = false := Bool.eq_false_iff.mpr fun htrue => absurd (ham hmode htrue) Bool.false_ne_true
      rw [hfalse]
      cases f.more <;> decide
    | some k =>
      obtain ⟨hwaiting, hkeep⟩ := hstate
      obtain ⟨r', hr', hw', hdelivered, herror, hexp⟩ := continueKept_spec (f := f) (k := k)
        (r := { r with expectedSeqNumber := r.expectedSeqNumber.add 1, sdusBuffer := f.pieces }) (hcont rfl) hp.ne_nil rfl hkeep
      refine ⟨r', ?_, hw', hdelivered, herror, (congrArg _ hexp).trans hexpected⟩
      exact (reassemble_waiting (r := { r with expectedSeqNumber := r.expectedSeqNumber.add 1, sdusBuffer := f.pieces })
        hwaiting).trans hr'
  · have hlost : decide (pdu.header.sequenceNumber.value ≠ r.expectedSeqNumber.value) = true := decide_eq_true hsn
    rw [hlost, if_pos rfl, if_neg hsn]
    obtain ⟨k, hk⟩ := reassemble_lost
      (r := { r with expectedSeqNumber := pdu.header.sequenceNumber.add 1, sdusBuffer := f.pieces }) mode
      ((if f.continues then 2 else 0) + if f.more then 1 else 0)
    obtain ⟨r', hr', hw', hdelivered, herror, hexp⟩ := startOver_spec (f := f)
      (r := { r with expectedSeqNumber := pdu.header.sequenceNumber.add 1, sdusBuffer := f.pieces, keepS0 := k }) hp.ne_nil rfl
    exact ⟨r', hk.trans hr', hw', hdelivered, herror, congrArg _ hexp⟩

end Reassembler

end Ns3Ndn.Lte
