import Ns3Ndn.Lib.Framing
import Ns3Ndn.Lte.SequenceNumber10

/-!
# Segmentation and concatenation in the LTE radio link control

`DoNotifyTxOpportunity` of `lte/model/lte-rlc-um.cc` and `lte-rlc-am.cc`, the part that builds a data PDU: SDUs are taken from the
transmission buffer until the opportunity is used up, and the last one can be cut. A tag on each SDU says which part of it is
left. Every SDU but the last of a PDU adds an extension bit and a length indicator to the header, two bytes for an odd one
and one byte for an even one.

* `Takes`: the segments that were taken, with their tags, and what goes back to the buffer;
* **`fillDataField_spec`**: the loop takes segments from the front, and the PDU is not longer than the opportunity.
-/

namespace Ns3Ndn.Lte

/-- `LteRlcSduStatusTag`. -/
inductive SduStatus where
  | fullSdu
  | firstSegment
  | middleSegment
  | lastSegment
  deriving DecidableEq, Repr

/-- An SDU, or what is left of one, with its tag. -/
structure Segment where
  status : SduStatus
  data : List UInt8
  deriving DecidableEq, Repr

def Segment.getSize (s : Segment) : ℕ := s.data.length

inductive RlcMode where
  | um
  | am
  deriving DecidableEq, Repr

def RlcMode.fixedPart : RlcMode → ℕ
  | .um => 2
  | .am => 4

/-- The fields of `LteRlcHeader` and `LteRlcAmHeader` for a data PDU. The polling bit is there in acknowledged mode only. -/
structure RlcHeader where
  headerLength : ℕ
  framingInfo : ℕ := 0xff
  sequenceNumber : SequenceNumber10
  pollingBit : Bool := false
  extensionBits : List Bool := []
  lengthIndicators : List ℕ := []
  deriving DecidableEq, Repr

namespace RlcHeader

def init : RlcMode → RlcHeader
  | .um => { headerLength := 0, sequenceNumber := .ofValue 0xfffa }
  | .am => { headerLength := 4, sequenceNumber := .ofValue 0xfffa }

def grow (mode : RlcMode) (bits length : ℕ) : ℕ :=
  match mode with
  | .um => if bits = 1 then 2 else if bits % 2 = 1 then length + 1 else length + 2
  | .am => if bits > 1 then if bits % 2 = 1 then length + 1 else length + 2 else length

def pushExtensionBit (mode : RlcMode) (h : RlcHeader) (bit : Bool) : RlcHeader :=
  { h with
    extensionBits := h.extensionBits ++ [bit]
    headerLength := grow mode (h.extensionBits.length + 1) h.headerLength }

def pushLengthIndicator (h : RlcHeader) (li : ℕ) : RlcHeader := { h with lengthIndicators := h.lengthIndicators ++ [li] }

end RlcHeader

/-- A subtraction of unsigned numbers that must not wrap. -/
def sub? (a b : ℕ) : Option ℕ := if b ≤ a then some (a - b) else none

/-- The local variables of the loop, and the counter of the buffer. -/
structure Building where
  txBufferSize : UInt32
  header : RlcHeader
  nextSegmentSize : ℕ
  nextSegmentId : ℕ := 1
  dataField : List Segment := []

namespace Building

variable (mode : RlcMode) (b : Building)

/-- The tags of a new segment and of what is left, before it is known whether something is left. -/
def cutStatus : SduStatus → SduStatus × SduStatus
  | .fullSdu => (.firstSegment, .lastSegment)
  | .lastSegment => (.middleSegment, .lastSegment)
  | s => (s, s)

/-- The tag of a segment that took everything. -/
def wholeStatus : SduStatus → SduStatus
  | .firstSegment => .fullSdu
  | .middleSegment => .lastSegment
  | s => s

def pushLast (s : Segment) : Option Building :=
  (sub? b.nextSegmentSize s.getSize).map fun next =>
    { b with
      dataField := b.dataField ++ [s]
      header := b.header.pushExtensionBit mode false
      nextSegmentSize := next
      nextSegmentId := b.nextSegmentId + 1 }

/-- The branch for an SDU that does not fit or is too long for a length indicator. -/
def cutFirst (txBuffer : List Segment) (first : Segment) : Option (List Segment × Building) :=
  let currSegmentSize := min first.getSize b.nextSegmentSize
  let newData := first.data.take currSegmentSize
  let rest := first.data.drop currSegmentSize
  if rest.length > 0 then
    ({ b with txBufferSize := b.txBufferSize + UInt32.ofNat rest.length }.pushLast mode ⟨(cutStatus first.status).1, newData⟩).map
      fun b => (⟨(cutStatus first.status).2, rest⟩ :: txBuffer, b)
  else (b.pushLast mode ⟨wholeStatus (cutStatus first.status).1, newData⟩).map fun b => (txBuffer, b)

/-- The branch for an SDU with another one after it. -/
def pushMore (s : Segment) : Option Building :=
  (sub? b.nextSegmentSize ((if b.nextSegmentId % 2 = 1 then 2 else 1) + s.getSize)).map fun next =>
    { b with
      dataField := b.dataField ++ [s]
      header := (b.header.pushExtensionBit mode true).pushLengthIndicator s.getSize
      nextSegmentSize := next
      nextSegmentId := b.nextSegmentId + 1 }

end Building

/-- The loop, with the SDU that was taken from the buffer last. It ends when there is no such SDU any more. -/
def fillDataField (mode : RlcMode) : List Segment → Segment → Building → Option (List Segment × Building)
  | txBuffer, first, b =>
    if first.getSize > 0 ∧ b.nextSegmentSize > 0 then
      if first.getSize > b.nextSegmentSize ∨ first.getSize > 2047 then b.cutFirst mode txBuffer first
      else if b.nextSegmentSize - first.getSize ≤ 2 then (b.pushLast mode first).map fun b => (txBuffer, b)
      else match txBuffer with
        | [] => (b.pushLast mode first).map fun b => ([], b)
        | next :: rest =>
          (b.pushMore mode first).bind fun b =>
            fillDataField mode rest next { b with txBufferSize := b.txBufferSize - UInt32.ofNat next.getSize }
    else some (txBuffer, b)

structure RlcPdu where
  header : RlcHeader
  data : List UInt8
  deriving DecidableEq, Repr

def RlcPdu.getSize (p : RlcPdu) : ℕ := p.header.headerLength + p.data.length

def SduStatus.hasFirst (s : SduStatus) : Bool := s = .fullSdu ∨ s = .firstSegment

def SduStatus.hasLast (s : SduStatus) : Bool := s = .fullSdu ∨ s = .lastSegment

def framingInfo (first last : SduStatus) : ℕ := (if first.hasFirst then 0x00 else 0x02) ||| (if last.hasLast then 0x00 else 0x01)

/-- The end of the function: the header and the data. There is at least one segment in the data field. -/
def Building.pdu (b : Building) (sequenceNumber : SequenceNumber10) : Option RlcPdu :=
  b.dataField.head?.bind fun first => b.dataField.getLast?.map fun last =>
    { header := { b.header with sequenceNumber := sequenceNumber, framingInfo := framingInfo first.status last.status }
      data := b.dataField.flatMap Segment.data }

structure TxBuffer where
  txBuffer : List Segment := []
  txBufferSize : UInt32 := 0

namespace TxBuffer

variable (t : TxBuffer)

def add (sdu : List UInt8) : TxBuffer where
  txBuffer := t.txBuffer ++ [⟨.fullSdu, sdu⟩]
  txBufferSize := t.txBufferSize + UInt32.ofNat sdu.length

def buildPdu (mode : RlcMode) (bytes : ℕ) (sequenceNumber : SequenceNumber10) : Option (TxBuffer × Option RlcPdu) :=
  match t.txBuffer with
  | [] => some (t, none)
  | first :: rest =>
    (sub? bytes mode.fixedPart).bind fun nextSegmentSize =>
      (fillDataField mode rest first
        { txBufferSize := t.txBufferSize - UInt32.ofNat first.getSize, header := .init mode, nextSegmentSize := nextSegmentSize }).bind
      fun r => (r.2.pdu sequenceNumber).map fun pdu => ({ txBuffer := r.1, txBufferSize := r.2.txBufferSize }, some pdu)

end TxBuffer

/-! ## Sizes -/

def totalSize (l : List Segment) : ℕ := (l.map Segment.getSize).sum

@[simp] theorem totalSize_nil : totalSize [] = 0 := rfl

@[simp] theorem totalSize_cons (s : Segment) (l : List Segment) : totalSize (s :: l) = s.getSize + totalSize l := by
  simp [totalSize]

@[simp] theorem totalSize_append (l l' : List Segment) : totalSize (l ++ l') = totalSize l + totalSize l' := by
  simp [totalSize]

theorem length_flatMap_data (l : List Segment) : (l.flatMap Segment.data).length = totalSize l := by
  rw [List.length_flatMap]
  rfl

/-- The length of a header with `n` extension bits. -/
def headerSize (mode : RlcMode) (n : ℕ) : ℕ := mode.fixedPart + (3 * (n - 1) + 1) / 2

theorem grow_init (mode : RlcMode) : RlcHeader.grow mode 1 (RlcHeader.init mode).headerLength = headerSize mode 1 := by
  cases mode <;> decide

theorem grow_headerSize (mode : RlcMode) {n : ℕ} (hn : 0 < n) :
    RlcHeader.grow mode (n + 1) (headerSize mode n) = headerSize mode (n + 1) := by
  cases mode <;> simp only [RlcHeader.grow, headerSize] <;> split_ifs <;> omega

/-! ## The loop -/

inductive Takes : List Segment → List Segment → Bool → List Segment → Prop
  | whole (s : Segment) (rest : List Segment) : Takes (s :: rest) [s] false rest
  | cut (st : SduStatus) {p q : List UInt8} (hp : p ≠ []) (hq : q ≠ []) (rest : List Segment) :
      Takes (⟨st, p ++ q⟩ :: rest) [⟨(Building.cutStatus st).1, p⟩] true (⟨(Building.cutStatus st).2, q⟩ :: rest)
  | next (s : Segment) {queue taken rest : List Segment} {more : Bool} (h : Takes queue taken more rest) :
      Takes (s :: queue) (s :: taken) more rest

theorem Takes.queue_ne_nil {queue taken rest : List Segment} {more : Bool} (h : Takes queue taken more rest) : queue ≠ [] := by
  cases h <;> exact List.cons_ne_nil _ _

theorem Takes.ne_nil {queue taken rest : List Segment} {more : Bool} (h : Takes queue taken more rest) : taken ≠ [] := by
  cases h <;> exact List.cons_ne_nil _ _

/-- The state of the loop: the header with the next extension bit, the data and the space that is left fit. -/
structure Room (mode : RlcMode) (bytes : ℕ) (b : Building) : Prop where
  bits : b.header.extensionBits.length = b.dataField.length
  id : b.nextSegmentId = b.dataField.length + 1
  grown : RlcHeader.grow mode (b.dataField.length + 1) b.header.headerLength = headerSize mode (b.dataField.length + 1)
  budget : headerSize mode (b.dataField.length + 1) + totalSize b.dataField + b.nextSegmentSize ≤ bytes

structure Filled (bytes : ℕ) (b b' : Building) (taken : List Segment) : Prop where
  dataField : b'.dataField = b.dataField ++ taken
  extensionBits : b'.header.extensionBits = b.header.extensionBits ++ (List.replicate (taken.length - 1) true ++ [false])
  lengthIndicators : b'.header.lengthIndicators = b.header.lengthIndicators ++ taken.dropLast.map Segment.getSize
  size : b'.header.headerLength + totalSize b'.dataField ≤ bytes

namespace Building

variable {mode : RlcMode} {bytes : ℕ} {b : Building} {s : Segment}

theorem pushLast_spec (h : Room mode bytes b) (hfit : s.getSize ≤ b.nextSegmentSize) :
    ∃ b', b.pushLast mode s = some b' ∧ Filled bytes b b' [s] ∧ b'.txBufferSize = b.txBufferSize := by
  rw [pushLast, sub?, if_pos hfit]
  refine ⟨_, rfl, ⟨rfl, rfl, (List.append_nil _).symm, ?_⟩, rfl⟩
  have hbudget := h.budget
  show RlcHeader.grow mode (b.header.extensionBits.length + 1) b.header.headerLength + totalSize (b.dataField ++ [s]) ≤ bytes
  rw [h.bits, h.grown, totalSize_append, totalSize_cons, totalSize_nil]
  omega

theorem pushMore_spec (h : Room mode bytes b) (hfit : s.getSize + 2 < b.nextSegmentSize) :
    ∃ b', b.pushMore mode s = some b' ∧ Room mode bytes b' ∧ 0 < b'.nextSegmentSize ∧ b'.dataField = b.dataField ++ [s] ∧
      b'.header.extensionBits = b.header.extensionBits ++ [true] ∧
      b'.header.lengthIndicators = b.header.lengthIndicators ++ [s.getSize] ∧ b'.txBufferSize = b.txBufferSize := by
  have hle : (if b.nextSegmentId % 2 = 1 then 2 else 1) + s.getSize ≤ b.nextSegmentSize := by split_ifs <;> omega
  have hlength : RlcHeader.grow mode (b.header.extensionBits.length + 1) b.header.headerLength =
      headerSize mode (b.dataField.length + 1) := by
    rw [h.bits, h.grown]
  have hbudget := h.budget
  have hid := h.id
  rw [pushMore, sub?, if_pos hle]
  refine ⟨_, rfl, ⟨?_, ?_, ?_, ?_⟩, ?_, rfl, rfl, rfl, rfl⟩
  · show (b.header.extensionBits ++ [true]).length = (b.dataField ++ [s]).length
    rw [List.length_append, List.length_append, h.bits]
    rfl
  · show b.nextSegmentId + 1 = (b.dataField ++ [s]).length + 1
    rw [List.length_append, hid]
    rfl
  · show RlcHeader.grow mode ((b.dataField ++ [s]).length + 1)
      (RlcHeader.grow mode (b.header.extensionBits.length + 1) b.header.headerLength) = headerSize mode ((b.dataField ++ [s]).length + 1)
    rw [hlength, List.length_append, List.length_singleton, grow_headerSize mode (Nat.succ_pos _)]
  · show headerSize mode ((b.dataField ++ [s]).length + 1) + totalSize (b.dataField ++ [s]) +
      (b.nextSegmentSize - ((if b.nextSegmentId % 2 = 1 then 2 else 1) + s.getSize)) ≤ bytes
    rw [totalSize_append, totalSize_cons, totalSize_nil, List.length_append, List.length_singleton]
    simp only [headerSize] at hbudget ⊢
    split_ifs <;> omega
  · show 0 < b.nextSegmentSize - ((if b.nextSegmentId % 2 = 1 then 2 else 1) + s.getSize)
    split_ifs <;> omega

theorem cutFirst_spec (h : Room mode bytes b) (hnext : 0 < b.nextSegmentSize) (hst : s.status = .fullSdu ∨ s.status = .lastSegment)
    (txBuffer : List Segment) (hsize : b.txBufferSize = UInt32.ofNat (totalSize txBuffer)) :
    ∃ rest b' taken more, b.cutFirst mode txBuffer s = some (rest, b') ∧ Takes (s :: txBuffer) taken more rest ∧
      Filled bytes b b' taken ∧ b'.txBufferSize = UInt32.ofNat (totalSize rest) := by
  rw [cutFirst]
  by_cases hfit : s.getSize ≤ b.nextSegmentSize
  · have hdrop : s.data.drop s.getSize = [] := List.drop_length
    have htake : s.data.take s.getSize = s.data := List.take_length
    have hstatus : wholeStatus (cutStatus s.status).1 = s.status := by rcases hst with hst | hst <;> rw [hst] <;> rfl
    obtain ⟨b', hb', hfilled, hcount⟩ := pushLast_spec h hfit
    rw [Nat.min_eq_left hfit, hdrop, htake, hstatus]
    exact ⟨txBuffer, b', [s], false, by rw [List.length_nil, if_neg (Nat.lt_irrefl 0), hb']; rfl, .whole s txBuffer, hfilled,
      hcount.trans hsize⟩
  · have hlt := Nat.not_le.mp hfit
    rw [Nat.min_eq_right hlt.le]
    have hsplit : s.data.take b.nextSegmentSize ++ s.data.drop b.nextSegmentSize = s.data := List.take_append_drop _ _
    have hp : (s.data.take b.nextSegmentSize).length = b.nextSegmentSize := List.length_take_of_le hlt.le
    have hq : 0 < (s.data.drop b.nextSegmentSize).length := by
      rw [List.length_drop]
      exact Nat.sub_pos_of_lt hlt
    generalize s.data.take b.nextSegmentSize = p at *
    generalize s.data.drop b.nextSegmentSize = q at *
    obtain ⟨b', hb', hfilled, hcount⟩ := pushLast_spec
      (b := { b with txBufferSize := b.txBufferSize + UInt32.ofNat q.length }) (s := ⟨(cutStatus s.status).1, p⟩)
      ⟨h.bits, h.id, h.grown, h.budget⟩ hp.le
    refine ⟨⟨(cutStatus s.status).2, q⟩ :: txBuffer, b', [⟨(cutStatus s.status).1, p⟩], true, ?_, ?_,
      ⟨hfilled.dataField, hfilled.extensionBits, hfilled.lengthIndicators, hfilled.size⟩, ?_⟩
    · rw [if_pos hq, hb']
      rfl
    · have hs : s = ⟨s.status, p ++ q⟩ := by rw [hsplit]
      rw [hs]
      exact .cut s.status (List.ne_nil_of_length_pos (by omega)) (List.ne_nil_of_length_pos hq) txBuffer
    · rw [hcount, hsize, totalSize_cons, Nat.add_comm, UInt32.ofNat_add]
      rfl

end Building

/-- **The loop takes segments from the front of the buffer**, in order, and nothing wraps. -/
theorem fillDataField_spec {mode : RlcMode} {bytes : ℕ} {txBuffer : List Segment} {first : Segment} {b : Building}
    (h : Room mode bytes b) (hnext : 0 < b.nextSegmentSize) (hsize : ∀ s ∈ first :: txBuffer, 0 < s.getSize)
    (hfirst : first.status = .fullSdu ∨ first.status = .lastSegment) (hfull : ∀ s ∈ txBuffer, s.status = .fullSdu)
    (hcount : b.txBufferSize = UInt32.ofNat (totalSize txBuffer)) :
    ∃ rest b' taken more, fillDataField mode txBuffer first b = some (rest, b') ∧ Takes (first :: txBuffer) taken more rest ∧
      Filled bytes b b' taken ∧ b'.txBufferSize = UInt32.ofNat (totalSize rest) := by
  induction txBuffer generalizing first b with
  | nil =>
    rw [fillDataField, if_pos ⟨hsize first List.mem_cons_self, hnext⟩]
    split_ifs with hcut hlast
    · exact Building.cutFirst_spec h hnext hfirst [] hcount
    all_goals
      obtain ⟨b', hb', hfilled, hcount'⟩ := Building.pushLast_spec (s := first) h (by omega)
      rw [hb']
      exact ⟨[], b', [first], false, rfl, .whole first [], hfilled, hcount'.trans hcount⟩
  | cons next rest ih =>
    rw [fillDataField, if_pos ⟨hsize first List.mem_cons_self, hnext⟩]
    split_ifs with hcut hlast
    · exact Building.cutFirst_spec h hnext hfirst (next :: rest) hcount
    · obtain ⟨b', hb', hfilled, hcount'⟩ := Building.pushLast_spec (s := first) h (by omega)
      rw [hb']
      exact ⟨next :: rest, b', [first], false, rfl, .whole first _, hfilled, hcount'.trans hcount⟩
    · obtain ⟨b1, hb1, hroom, hpos, hdata, hbits, hli, hcount1⟩ := Building.pushMore_spec (s := first) h (by omega)
      have hcount2 : b1.txBufferSize - UInt32.ofNat next.getSize = UInt32.ofNat (totalSize rest) := by
        rw [hcount1, hcount, totalSize_cons, Nat.add_comm, UInt32.ofNat_add, UInt32.add_sub_cancel]
      obtain ⟨rest', b2, taken, more, hrun, htakes, hfilled, hcount3⟩ :=
        ih (b := { b1 with txBufferSize := b1.txBufferSize - UInt32.ofNat next.getSize })
          ⟨hroom.bits, hroom.id, hroom.grown, hroom.budget⟩ hpos (fun s hs => hsize s (List.mem_cons_of_mem first hs))
          (.inl (hfull next List.mem_cons_self)) (fun s hs => hfull s (List.mem_cons_of_mem next hs)) hcount2
      refine ⟨rest', b2, first :: taken, more, ?_, .next first htakes, ⟨?_, ?_, ?_, hfilled.size⟩, hcount3⟩
      · rw [hb1, Option.bind_some, hrun]
      · rw [hfilled.dataField, hdata, List.append_assoc]
        rfl
      · obtain ⟨a, l, rfl⟩ := List.exists_cons_of_ne_nil htakes.ne_nil
        rw [hfilled.extensionBits, hbits, List.append_assoc]
        rfl
      · obtain ⟨a, l, rfl⟩ := List.exists_cons_of_ne_nil htakes.ne_nil
        rw [hfilled.lengthIndicators, hli, List.append_assoc]
        rfl

/-! ## The buffer and the PDU -/

/-- The buffer between opportunities: whole SDUs, behind the end of one if `cut`. -/
structure Ready (cut : Bool) (l : List Segment) : Prop where
  nonempty : ∀ s ∈ l, s.data ≠ []
  head : l.head?.map Segment.status = if cut then some .lastSegment else l.head?.map fun _ => .fullSdu
  tail : ∀ s ∈ l.tail, s.status = .fullSdu

theorem Ready.nil : Ready false [] := ⟨by simp, rfl, by simp⟩

structure RlcPdu.Carries (p : RlcPdu) (f : FramingLib.Frame UInt8) : Prop where
  ne_nil : f.pieces ≠ []
  nonempty : ∀ x ∈ f.pieces, x ≠ []
  extensionBits : p.header.extensionBits = List.replicate (f.pieces.length - 1) true ++ [false]
  lengthIndicators : p.header.lengthIndicators = f.pieces.dropLast.map List.length
  data : p.data = f.pieces.flatten
  framingInfo : p.header.framingInfo = (if f.continues then 2 else 0) + if f.more then 1 else 0

namespace Takes

variable {queue taken rest : List Segment} {more cut : Bool}

variable (h : Takes queue taken more rest)

include h

theorem isCut : FramingLib.Cut (queue.map Segment.data) (taken.map Segment.data) more (rest.map Segment.data) := by
  induction h with
  | whole s rest => exact .whole s.data _
  | cut st hp hq rest => exact .part _ _ _
  | next s h ih => exact .next s.data ih

theorem nonempty (hq : ∀ s ∈ queue, s.data ≠ []) : (∀ s ∈ taken, s.data ≠ []) ∧ ∀ s ∈ rest, s.data ≠ [] := by
  induction h with
  | whole s rest =>
    exact ⟨fun x hx => hq x (List.mem_singleton.mp hx ▸ List.mem_cons_self), fun x hx => hq x (List.mem_cons_of_mem s hx)⟩
  | cut st hp hq' rest =>
    refine ⟨fun x hx => ?_, fun x hx => ?_⟩
    · rw [List.mem_singleton.mp hx]
      exact hp
    · rcases List.mem_cons.mp hx with rfl | hx
      · exact hq'
      · exact hq x (List.mem_cons_of_mem _ hx)
  | next s h ih =>
    obtain ⟨htaken, hrest⟩ := ih fun x hx => hq x (List.mem_cons_of_mem s hx)
    refine ⟨fun x hx => ?_, hrest⟩
    rcases List.mem_cons.mp hx with rfl | hx
    · exact hq x List.mem_cons_self
    · exact htaken x hx

theorem statuses (hq : ∀ s ∈ queue.tail, s.status = .fullSdu)
    (hhead : ∀ s ∈ queue.head?, s.status = .fullSdu ∨ s.status = .lastSegment) :
    (rest.head?.map Segment.status = if more then some .lastSegment else rest.head?.map fun _ => .fullSdu) ∧
      ∀ s ∈ rest.tail, s.status = .fullSdu := by
  induction h with
  | whole s rest =>
    refine ⟨?_, fun x hx => hq x (List.mem_of_mem_tail hx)⟩
    cases rest with
    | nil => rfl
    | cons a l => exact congrArg some (hq a List.mem_cons_self)
  | cut st hp hq' rest =>
    refine ⟨?_, hq⟩
    rcases hhead _ rfl with hst | hst
    all_goals
      change st = _ at hst
      subst hst
      rfl
  | next s h ih =>
    refine ih (fun x hx => hq x (List.mem_of_mem_tail hx)) fun x hx => .inl (hq x ?_)
    exact List.mem_of_mem_head? hx

/-- The tags of the first and of the last segment. -/
theorem ends (hq : ∀ s ∈ queue.tail, s.status = .fullSdu)
    (hhead : queue.head?.map Segment.status = some (if cut then .lastSegment else .fullSdu)) :
    ∃ first last, taken.head? = some first ∧ taken.getLast? = some last ∧ first.status.hasFirst = !cut ∧
      last.status.hasLast = !more := by
  induction h generalizing cut with
  | whole s rest =>
    refine ⟨s, s, rfl, rfl, ?_⟩
    rw [Option.some_inj.mp hhead]
    cases cut <;> exact ⟨rfl, rfl⟩
  | cut st hp hq' rest =>
    have hst : st = if cut then .lastSegment else .fullSdu := Option.some_inj.mp hhead
    subst hst
    cases cut <;> exact ⟨_, _, rfl, rfl, rfl, rfl⟩
  | @next s queue taken rest more h ih =>
    obtain ⟨a, l, rfl⟩ := List.exists_cons_of_ne_nil h.queue_ne_nil
    have hhead' : (a :: l).head?.map Segment.status = some (if false then .lastSegment else .fullSdu) :=
      congrArg some (hq a List.mem_cons_self)
    obtain ⟨first, last, hfirst, hlast, -, hends⟩ := ih (fun x hx => hq x (List.mem_of_mem_tail hx)) hhead'
    obtain ⟨c, m, rfl⟩ := List.exists_cons_of_ne_nil h.ne_nil
    refine ⟨s, last, rfl, hlast, ?_, hends⟩
    rw [Option.some_inj.mp hhead]
    cases cut <;> rfl

end Takes

theorem framingInfo_eq (first last : SduStatus) :
    framingInfo first last = (if first.hasFirst then 0 else 2) + if last.hasLast then 0 else 1 := by
  cases first <;> cases last <;> decide

namespace TxBuffer

structure Good (t : TxBuffer) (cut : Bool) : Prop where
  ready : Ready cut t.txBuffer
  counted : t.txBufferSize = UInt32.ofNat (totalSize t.txBuffer)

theorem Good.add {t : TxBuffer} {cut : Bool} (h : t.Good cut) {sdu : List UInt8} (hsdu : sdu ≠ []) : (t.add sdu).Good cut := by
  obtain ⟨⟨hnonempty, hhead, htail⟩, hcount⟩ := h
  refine ⟨⟨fun s hs => ?_, ?_, ?_⟩, ?_⟩
  · rcases List.mem_append.mp hs with hs | hs
    · exact hnonempty s hs
    · rwa [List.mem_singleton.mp hs]
  · rw [TxBuffer.add]
    cases hl : t.txBuffer with
    | nil =>
      rw [hl] at hhead
      cases cut with
      | false => rfl
      | true => exact absurd hhead (by simp)
    | cons a l => rwa [hl] at hhead
  · rw [TxBuffer.add]
    cases hl : t.txBuffer with
    | nil => exact fun s hs => absurd hs (List.not_mem_nil)
    | cons a l =>
      rw [hl] at htail
      intro s hs
      rcases List.mem_append.mp hs with hs | hs
      · exact htail s hs
      · rw [List.mem_singleton.mp hs]
  · show t.txBufferSize + UInt32.ofNat sdu.length = UInt32.ofNat (totalSize (t.txBuffer ++ [⟨.fullSdu, sdu⟩]))
    rw [hcount, totalSize_append, totalSize_cons, totalSize_nil, ← UInt32.ofNat_add]
    rfl

/-- **A PDU for an opportunity**: it is not longer than the opportunity, and carries what was taken from the buffer. -/
theorem buildPdu_spec {mode : RlcMode} {t : TxBuffer} {cut : Bool} {bytes : ℕ} (h : t.Good cut) (hne : t.txBuffer ≠ [])
    (hbytes : mode.fixedPart < bytes) (sequenceNumber : SequenceNumber10) :
    ∃ t' pdu taken more, t.buildPdu mode bytes sequenceNumber = some (t', some pdu) ∧ Takes t.txBuffer taken more t'.txBuffer ∧
      t'.Good more ∧ pdu.getSize ≤ bytes ∧ pdu.header.sequenceNumber = sequenceNumber ∧
      pdu.Carries ⟨cut, taken.map Segment.data, more⟩ := by
  obtain ⟨⟨hnonempty, hhead, htail⟩, hcount⟩ := h
  obtain ⟨first, rest, hl⟩ := List.exists_cons_of_ne_nil hne
  rw [hl] at hnonempty hhead htail
  have hstatus : first.status = if cut then .lastSegment else .fullSdu := by
    cases cut <;> exact Option.some_inj.mp hhead
  have hstatus' : first.status = .fullSdu ∨ first.status = .lastSegment := by
    rw [hstatus]
    cases cut
    · exact .inl rfl
    · exact .inr rfl
  have hcount' : t.txBufferSize - UInt32.ofNat first.getSize = UInt32.ofNat (totalSize rest) := by
    rw [hcount, hl, totalSize_cons, Nat.add_comm, UInt32.ofNat_add, UInt32.add_sub_cancel]
  have hroom : Room mode bytes
      ⟨t.txBufferSize - UInt32.ofNat first.getSize, .init mode, bytes - mode.fixedPart, 1, []⟩ := by
    refine ⟨by cases mode <;> rfl, rfl, grow_init mode, ?_⟩
    show mode.fixedPart + (3 * (1 - 1) + 1) / 2 + 0 + (bytes - mode.fixedPart) ≤ bytes
    omega
  obtain ⟨rest', b', taken, more, hrun, htakes, hfilled, hsize⟩ := fillDataField_spec hroom (Nat.sub_pos_of_lt hbytes)
    (fun s hs => List.length_pos_iff.mpr (hnonempty s hs)) hstatus' htail hcount'
  have hheadStatus : (first :: rest).head?.map Segment.status = some (if cut then .lastSegment else .fullSdu) := congrArg some hstatus
  obtain ⟨head, last, hheadTaken, hlastTaken, hfirst, hlast⟩ := htakes.ends htail hheadStatus
  obtain ⟨htakenNonempty, hrestNonempty⟩ := htakes.nonempty hnonempty
  obtain ⟨hhead', htail'⟩ := htakes.statuses htail fun s hs => by
    rw [← Option.some_inj.mp hs]
    exact hstatus'
  have hfield : b'.dataField = taken := hfilled.dataField
  refine ⟨⟨rest', b'.txBufferSize⟩, ⟨⟨b'.header.headerLength, framingInfo head.status last.status, sequenceNumber,
    b'.header.pollingBit, b'.header.extensionBits, b'.header.lengthIndicators⟩, taken.flatMap Segment.data⟩, taken, more, ?_, ?_,
    ⟨⟨hrestNonempty, hhead', htail'⟩, hsize⟩, ?_, rfl, ⟨?_, ?_, ?_, ?_, rfl, ?_⟩⟩
  · rw [buildPdu, hl]
    show (sub? bytes mode.fixedPart).bind _ = _
    rw [sub?, if_pos hbytes.le, Option.bind_some, hrun, Option.bind_some, Building.pdu, hfield, hheadTaken, Option.bind_some,
      hlastTaken]
    rfl
  · rw [hl]
    exact htakes
  · show b'.header.headerLength + (taken.flatMap Segment.data).length ≤ bytes
    rw [length_flatMap_data, ← hfield]
    exact hfilled.size
  · exact fun hnil => htakes.ne_nil (List.map_eq_nil_iff.mp hnil)
  · intro x hx
    obtain ⟨s, hs, rfl⟩ := List.mem_map.mp hx
    exact htakenNonempty s hs
  · rw [List.length_map]
    exact hfilled.extensionBits.trans (by cases mode <;> rfl)
  · show b'.header.lengthIndicators = _
    rw [hfilled.lengthIndicators, ← List.map_dropLast, List.map_map]
    cases mode <;> rfl
  · show framingInfo head.status last.status = _
    rw [framingInfo_eq, hfirst, hlast]
    cases cut <;> cases more <;> rfl

end TxBuffer

end Ns3Ndn.Lte
