import Ns3Ndn.Lib.Overlap
import Ns3Ndn.Network.SequenceNumber

/-!
# The receive buffer of TCP

`internet/model/tcp-rx-buffer.cc`: segments that arrive in any order and overlap each other are kept in a map by sequence
numbers, each byte once, and the bytes that follow on each other are extracted. A failed assertion is `none`.

* `updateSackList`, `clearSackList`: the blocks to be reported to the sender.
-/

namespace Ns3Ndn.Internet

open Network SequenceNumber32 SliceLib

/-- `SackBlock`. -/
abbrev SackBlock := SequenceNumber32 × SequenceNumber32

abbrev BufEntry := SequenceNumber32 × List UInt8

structure TcpRxBuffer where
  sackList : List SackBlock := []
  nextRxSeq : SequenceNumber32
  finSeq : SequenceNumber32 := 0
  gotFin : Bool := false
  size : UInt32 := 0
  maxBuffer : UInt32 := 32768
  availBytes : UInt32 := 0
  data : List BufEntry := []

def packetSize (p : List UInt8) : UInt32 := UInt32.ofNat p.length

def insertData (k : SequenceNumber32) (p : List UInt8) : List BufEntry → List BufEntry
  | [] => [(k, p)]
  | i :: rest => if lt k i.1 then (k, p) :: i :: rest else if k == i.1 then (k, p) :: rest else i :: insertData k p rest

def eraseData (k : SequenceNumber32) (data : List BufEntry) : List BufEntry := data.eraseP fun i => i.1 == k

/-- `Packet::CreateFragment`, which asserts that the fragment is inside of the packet. -/
def fragmentOf (p : List UInt8) (start length : UInt32) : Option (List UInt8) :=
  if start.toNat + length.toNat ≤ p.length then some (slice p start.toNat (start.toNat + length.toNat)) else none

namespace TcpRxBuffer

/-! ## Blocks to be reported -/

/-- The inner loop of `UpdateSackList`: the first block that can be merged with the one at the beginning. -/
def mergeOne (first : SackBlock) : List SackBlock → Option (Option (SackBlock × List SackBlock))
  | [] => some none
  | current :: rest =>
    if first.1 == current.2 then
      if lt current.1 first.2 then some (some ((current.1, first.2), rest)) else none
    else if first.2 == current.1 then
      if lt first.1 current.2 then some (some ((first.1, current.2), rest)) else none
    else (mergeOne first rest).map (Option.map fun m => (m.1, current :: m.2))

def mergeBlocks : ℕ → SackBlock → List SackBlock → Option (List SackBlock)
  | 0, first, blocks => some (first :: blocks)
  | n + 1, first, blocks =>
    (mergeOne first blocks).bind fun
      | none => some (first :: blocks)
      | some m => mergeBlocks n m.1 m.2

def updateSackList (nextRxSeq head tail : SequenceNumber32) (sackList : List SackBlock) : Option (List SackBlock) :=
  if gt head nextRxSeq then
    (mergeBlocks sackList.length (head, tail) sackList).map fun l => if l.length > 4 then l.dropLast else l
  else none

def clearSackList (seq : SequenceNumber32) (sackList : List SackBlock) : Option (List SackBlock) :=
  if sackList.all fun block => lt block.1 block.2 then some (sackList.filter fun block => ! le block.2 seq) else none

/-! ## Segments -/

/-- What is left of a segment, and of the buffer. -/
structure Overlap where
  headSeq : SequenceNumber32
  tailSeq : SequenceNumber32
  data : List BufEntry
  size : UInt32

def removeOverlap (headSeq tailSeq : SequenceNumber32) (size : UInt32) : List BufEntry → Overlap
  | [] => ⟨headSeq, tailSeq, [], size⟩
  | i :: rest =>
    if le i.1 tailSeq then
      let lastByteSeq := i.1 + packetSize i.2
      if gt lastByteSeq headSeq then
        if gt i.1 headSeq && lt lastByteSeq tailSeq then removeOverlap headSeq tailSeq (size - packetSize i.2) rest
        else
          let headSeq := if le i.1 headSeq then lastByteSeq else headSeq
          let tailSeq := if ge lastByteSeq tailSeq then i.1 else tailSeq
          let r := removeOverlap headSeq tailSeq size rest
          { r with data := i :: r.data }
      else
        let r := removeOverlap headSeq tailSeq size rest
        { r with data := i :: r.data }
    else ⟨headSeq, tailSeq, i :: rest, size⟩

/-- The loop of `Add` over the data that follows on. -/
def updateNext : TcpRxBuffer → List BufEntry → Option TcpRxBuffer
  | s, [] => some s
  | s, i :: rest =>
    if lt i.1 s.nextRxSeq then updateNext s rest
    else if gt i.1 s.nextRxSeq then some s
    else
      let nextRxSeq := i.1 + packetSize i.2
      (clearSackList nextRxSeq s.sackList).bind fun sackList =>
        updateNext { s with
                      nextRxSeq := nextRxSeq
                      availBytes := s.availBytes + packetSize i.2
                      sackList := sackList } rest

variable (s : TcpRxBuffer)

/-- `MaxRxSequence`: the lowest number that cannot be accepted. -/
def maxRxSequence : SequenceNumber32 :=
  if s.gotFin then s.finSeq
  else match s.data with
    | [] => s.nextRxSeq + s.maxBuffer
    | first :: _ => if gt s.nextRxSeq first.1 then first.1 + s.maxBuffer else s.nextRxSeq + s.maxBuffer

/-- The part of the segment from `headSeq` to before `tailSeq` that fits the receive window. -/
def fitWindow (headSeq tailSeq : SequenceNumber32) : SequenceNumber32 × SequenceNumber32 :=
  let headSeq := if lt headSeq s.nextRxSeq then s.nextRxSeq else headSeq
  match s.data with
  | [] => (headSeq, tailSeq)
  | first :: _ =>
    let maxSeq := first.1 + s.maxBuffer
    let tailSeq := if lt maxSeq tailSeq then maxSeq else tailSeq
    let headSeq := if lt tailSeq headSeq then tailSeq else headSeq
    (headSeq, tailSeq)

def add (p : List UInt8) (sequenceNumber : SequenceNumber32) : Option (Bool × TcpRxBuffer) :=
  let pktSize := packetSize p
  let fit := s.fitWindow sequenceNumber (sequenceNumber + pktSize)
  let r := removeOverlap fit.1 fit.2 s.size s.data
  let s := { s with data := r.data, size := r.size }
  if ge r.headSeq r.tailSeq then some (false, s)
  else
    let start := (sub r.headSeq sequenceNumber).toUInt32
    let length := (sub r.tailSeq r.headSeq).toUInt32
    (fragmentOf p start length).bind fun p =>
      if s.data.any fun i => i.1 == r.headSeq then none
      else
        let s := { s with data := insertData r.headSeq p s.data }
        (if gt r.headSeq s.nextRxSeq then updateSackList s.nextRxSeq r.headSeq r.tailSeq s.sackList
          else some s.sackList).bind fun sackList =>
            let s := { s with sackList := sackList, size := s.size + packetSize p }
            (updateNext s s.data).map fun s =>
              (true, if s.gotFin && s.nextRxSeq == s.finSeq then { s with nextRxSeq := s.nextRxSeq + 1 } else s)

def setFinSequence (fin : SequenceNumber32) : TcpRxBuffer :=
  let s := { s with gotFin := true, finSeq := fin }
  if s.nextRxSeq == s.finSeq then { s with nextRxSeq := s.nextRxSeq + 1 } else s

def extractLoop : List BufEntry → UInt32 → TcpRxBuffer → List UInt8 → Option (List UInt8 × TcpRxBuffer)
  | [], extractSize, s, outPkt => if extractSize == 0 then some (outPkt, { s with data := [] }) else none
  | i :: rest, extractSize, s, outPkt =>
    if extractSize == 0 then some (outPkt, { s with data := i :: rest })
    else if le i.1 s.nextRxSeq then
      let pktSize := packetSize i.2
      if pktSize ≤ extractSize then
        extractLoop rest (extractSize - pktSize) { s with size := s.size - pktSize, availBytes := s.availBytes - pktSize }
          (outPkt ++ i.2)
      else
        (fragmentOf i.2 0 extractSize).bind fun front =>
          (fragmentOf i.2 extractSize (pktSize - extractSize)).map fun back =>
            (outPkt ++ front,
              { s with
                data := eraseData i.1 (insertData (i.1 + extractSize) back (i :: rest))
                size := s.size - extractSize
                availBytes := s.availBytes - extractSize })
    else none

/-- `Extract`: the packet, where a null pointer is an empty packet. -/
def extract (maxSize : UInt32) : Option (List UInt8 × TcpRxBuffer) :=
  let extractSize := min maxSize s.availBytes
  if extractSize == 0 then some ([], s)
  else if s.data.isEmpty then none
  else extractLoop s.data extractSize s []

end TcpRxBuffer

/-! ## Numbers of 32 bits -/

variable {i j : ℕ}

theorem fragmentOf_eq (data : List UInt8) (hi : i < 2 ^ 32) (hj : j < 2 ^ 32) (hle : i + j ≤ data.length) :
    fragmentOf data (UInt32.ofNat i) (UInt32.ofNat j) = some (slice data i (i + j)) := by
  rw [fragmentOf, UInt32.toNat_ofNat_of_lt' hi, UInt32.toNat_ofNat_of_lt' hj, if_pos hle]

theorem ofNat_sub_ofNat (h : j ≤ i) : UInt32.ofNat i - UInt32.ofNat j = UInt32.ofNat (i - j) := by
  have hsum : UInt32.ofNat i = UInt32.ofNat (i - j) + UInt32.ofNat j := by
    rw [← UInt32.ofNat_add, Nat.sub_add_cancel h]
  rw [hsum, UInt32.add_sub_cancel]

theorem ofNat_le_ofNat (hi : i < 2 ^ 32) (hj : j < 2 ^ 32) : UInt32.ofNat i ≤ UInt32.ofNat j ↔ i ≤ j := by
  rw [UInt32.le_iff_toNat_le, UInt32.toNat_ofNat_of_lt' hi, UInt32.toNat_ofNat_of_lt' hj]

theorem ofNat_lt_ofNat (hi : i < 2 ^ 32) (hj : j < 2 ^ 32) : UInt32.ofNat i < UInt32.ofNat j ↔ i < j := by
  rw [UInt32.lt_iff_toNat_lt, UInt32.toNat_ofNat_of_lt' hi, UInt32.toNat_ofNat_of_lt' hj]

theorem beq_ofNat (hi : i < 2 ^ 32) (hj : j < 2 ^ 32) : (UInt32.ofNat i == UInt32.ofNat j) = decide (i = j) := by
  rw [Bool.eq_iff_iff, beq_iff_eq, decide_eq_true_eq, ← UInt32.toNat_inj, UInt32.toNat_ofNat_of_lt' hi,
    UInt32.toNat_ofNat_of_lt' hj]

theorem beq_zero_ofNat {k : ℕ} (hk : k < 2 ^ 32) : (UInt32.ofNat k == 0) = decide (k = 0) :=
  beq_ofNat hk (Nat.two_pow_pos 32)

end Ns3Ndn.Internet
