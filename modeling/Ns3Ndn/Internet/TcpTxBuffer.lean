import Ns3Ndn.Internet.TcpRxBuffer

/-!
# The send buffer of TCP

`internet/model/tcp-tx-buffer.cc`: data that was not sent yet, and segments that were sent and not acknowledged, which are
split and merged as they are sent again. Flags of the segments and counters of their bytes are the scoreboard.

* `getPacketFromList`, `copyFromSequence`: finding, splitting and merging segments.
-/

namespace Ns3Ndn.Internet

open Network SequenceNumber32

/-- An item of a list; `id` tells which object it is. -/
structure TcpTxItem where
  id : ℕ
  startSeq : SequenceNumber32 := 0
  packet : List UInt8
  lost : Bool := false
  retrans : Bool := false
  sacked : Bool := false

namespace TcpTxItem

variable (t t1 t2 : TcpTxItem)

def size : UInt32 := packetSize t.packet

def split (id : ℕ) (size : UInt32) : Option (TcpTxItem × TcpTxItem) :=
  (fragmentOf t2.packet 0 size).map fun p =>
    ({ t2 with id := id, packet := p },
      { t2 with packet := t2.packet.drop size.toNat, startSeq := t2.startSeq + size })

/-- `MergeItems`: `t1` with the bytes of both, and `m_retrans`. -/
def merge (retrans : UInt32) : Option (TcpTxItem × UInt32) :=
  if t1.sacked == t2.sacked && t1.lost == t2.lost then
    let r :=
      if t1.retrans != t2.retrans then
        if t1.retrans then ({ t1 with retrans := false }, retrans - t1.size) else (t1, retrans - t2.size)
      else (t1, retrans)
    some ({ r.1 with packet := r.1.packet ++ t2.packet }, r.2)
  else none

end TcpTxItem

structure TcpTxBuffer where
  appList : List TcpTxItem := []
  sentList : List TcpTxItem := []
  maxBuffer : UInt32 := 32768
  size : UInt32 := 0
  sentSize : UInt32 := 0
  firstByteSeq : SequenceNumber32
  /-- The item an iterator points to, where `none` is the end of the list. -/
  highestSack : Option ℕ × SequenceNumber32 := (none, 0)
  lostOut : UInt32 := 0
  sackedOut : UInt32 := 0
  retrans : UInt32 := 0
  dupAckThresh : UInt32 := 0
  renoSack : Bool := false
  sackEnabled : Bool := true
  nextId : ℕ := 0

namespace TcpTxBuffer

variable (s : TcpTxBuffer)

def tailSequence : SequenceNumber32 := s.firstByteSeq + s.size

def available : UInt32 := s.maxBuffer - s.size

def add (p : List UInt8) : TcpTxBuffer :=
  if packetSize p ≤ s.available then
    if packetSize p > 0 then
      { s with
        appList := s.appList ++ [{ id := s.nextId, packet := p }]
        size := s.size + packetSize p
        nextId := s.nextId + 1 }
    else s
  else s

def sizeFromSequence (seq : SequenceNumber32) : UInt32 :=
  if ge s.tailSequence seq then (sub s.tailSequence seq).toUInt32 else 0

/-! ## Finding a segment -/

/-- A list with an item in it, `m_retrans`, and the number of the next new item. -/
structure Found where
  before : List TcpTxItem
  item : TcpTxItem
  after : List TcpTxItem
  retrans : UInt32
  nextId : ℕ

/-- What one walk of `GetPacketFromList` leads to: the item, or a list to walk again. -/
inductive Walk where
  | found (f : Found)
  | again (list : List TcpTxItem) (retrans : UInt32) (nextId : ℕ)

/-- One walk of `GetPacketFromList`, where `sent` tells whether the list is `m_sentList`. -/
def walk (sent : Bool) (firstByteSeq : SequenceNumber32) (numBytes : UInt32) (seq : SequenceNumber32) (retrans : UInt32)
    (nextId : ℕ) (before : List TcpTxItem) (beginOfCurrentPacket : SequenceNumber32) : List TcpTxItem → Option Walk
  | [] => none
  | t :: rest =>
    if sent && ! ge t.startSeq firstByteSeq then none
    else if lt seq (beginOfCurrentPacket + t.size) then
      if seq == beginOfCurrentPacket then
        if le (seq + numBytes) (beginOfCurrentPacket + t.size) then
          if numBytes == t.size then some (.found ⟨before, t, rest, retrans, nextId⟩)
          else if numBytes < t.size then
            (t.split nextId numBytes).map fun r => .found ⟨before, r.1, r.2 :: rest, retrans, nextId + 1⟩
          else none  -- the loop does not end
        else
          match rest with
          | [] => some (.found ⟨before, t, [], retrans, nextId⟩)
          | next :: rest => (t.merge next retrans).map fun r => .again (before ++ r.1 :: rest) r.2 nextId
      else if gt seq beginOfCurrentPacket then
        (t.split nextId (sub seq beginOfCurrentPacket).toUInt32).map fun r =>
          .again (before ++ r.1 :: r.2 :: rest) retrans (nextId + 1)
      else none
    else walk sent firstByteSeq numBytes seq retrans nextId (before ++ [t]) (beginOfCurrentPacket + t.size) rest

/-- `GetPacketFromList`, with a bound for its recursion. -/
def getPacketFromList (sent : Bool) (firstByteSeq listStartFrom : SequenceNumber32) (numBytes : UInt32)
    (seq : SequenceNumber32) : ℕ → List TcpTxItem → UInt32 → ℕ → Option Found
  | 0, _, _, _ => none
  | fuel + 1, list, retrans, nextId =>
    (walk sent firstByteSeq numBytes seq retrans nextId [] listStartFrom list).bind fun
      | .found f => some f
      | .again list retrans nextId => getPacketFromList sent firstByteSeq listStartFrom numBytes seq fuel list retrans nextId

def getNewSegment (numBytes : UInt32) : Option (TcpTxItem × TcpTxBuffer) :=
  let startOfAppList := s.firstByteSeq + s.sentSize
  (getPacketFromList false s.firstByteSeq startOfAppList numBytes startOfAppList (s.appList.length + 2) s.appList s.retrans
    s.nextId).map fun f =>
      let item := { f.item with startSeq := startOfAppList }
      (item, { s with
                appList := f.before ++ f.after
                sentList := s.sentList ++ [item]
                sentSize := s.sentSize + item.size
                retrans := f.retrans
                nextId := f.nextId })

/-- The loop of `GetTransmittedSegment` that limits the bytes to segments with the same flags. -/
def limitBytes (numBytes : UInt32) (seq : SequenceNumber32) : List TcpTxItem → UInt32
  | [] => numBytes
  | t :: rest =>
    if t.startSeq == seq then
      match rest with
      | [] => min numBytes t.size
      | next :: _ => if ! next.sacked && t.lost == next.lost then min numBytes (t.size + next.size) else min numBytes t.size
    else limitBytes numBytes seq rest

def getTransmittedSegment (numBytes : UInt32) (seq : SequenceNumber32) : Option (TcpTxItem × TcpTxBuffer) :=
  if ge seq s.firstByteSeq && decide (numBytes ≤ s.sentSize) && ! s.sentList.isEmpty then
    (getPacketFromList true s.firstByteSeq s.firstByteSeq (limitBytes numBytes seq s.sentList) seq (s.sentList.length + 2)
      s.sentList s.retrans s.nextId).map fun f =>
        let item := { f.item with retrans := true }
        (item, { s with
                  sentList := f.before ++ item :: f.after
                  retrans := if f.item.retrans then f.retrans else f.retrans + f.item.size
                  nextId := f.nextId })
  else none

/-- `CopyFromSequence`, with a bound for its recursion. -/
def copyLoop : ℕ → UInt32 → SequenceNumber32 → Option (Option TcpTxItem × TcpTxBuffer)
  | 0, _, _ => none
  | fuel + 1, numBytes, seq =>
    if gt s.firstByteSeq seq then none
    else
      let n := min numBytes (s.sizeFromSequence seq)
      if n == 0 then some (none, s)
      else if ge (s.firstByteSeq + s.sentSize) (seq + n) then
        (s.getTransmittedSegment n seq).bind fun r =>
          if ! r.1.sacked && ge r.1.startSeq s.firstByteSeq then some (some r.1, r.2) else none
      else if le (s.firstByteSeq + s.sentSize) seq then
        if s.firstByteSeq + s.sentSize == seq then
          (s.getNewSegment n).bind fun r =>
            if ! r.1.retrans && ge r.1.startSeq s.firstByteSeq then some (some r.1, r.2) else none
        else none
      else if s.firstByteSeq + s.sentSize > seq ∧ s.firstByteSeq + s.sentSize < seq + n then
        copyLoop fuel (s.firstByteSeq + s.sentSize - seq) seq
      else none  -- the code uses a null pointer

def copyFromSequence (numBytes : UInt32) (seq : SequenceNumber32) : Option (Option TcpTxItem × TcpTxBuffer) :=
  s.copyLoop 2 numBytes seq

/-- The loop of `FindHighestSacked`. -/
def findHighest : SequenceNumber32 → Option ℕ × SequenceNumber32 → List TcpTxItem → Option ℕ × SequenceNumber32
  | _, ret, [] => ret
  | beginOfCurrentPacket, ret, t :: rest =>
    findHighest (beginOfCurrentPacket + t.size) (if t.sacked then (some t.id, beginOfCurrentPacket) else ret) rest

def findHighestSacked : Option ℕ × SequenceNumber32 := findHighest s.firstByteSeq (none, 0) s.sentList

/-! ## The scoreboard -/

/-- `AddRenoSack`: the first segment after the head that is not sacked, and the iterator to it. -/
def renoScan : List TcpTxItem → Option (List TcpTxItem × TcpTxItem)
  | [] => none
  | t :: rest =>
    if t.sacked then (renoScan rest).map fun r => (t :: r.1, r.2)
    else some ({ t with sacked := true } :: rest, t)

def addRenoSack : Option TcpTxBuffer :=
  match s.sentList with
  | [] => none
  | head :: tail =>
    if s.sackEnabled && tail.isEmpty then none
    else
      let s := { s with renoSack := true }
      match renoScan tail with
      | none => some s
      | some r => some { s with
                          sentList := head :: r.1
                          sackedOut := s.sackedOut + r.2.size
                          highestSack := (some r.2.id, r.2.startSeq) }

def markHeadAsLost : TcpTxBuffer :=
  match s.sentList with
  | [] => s
  | head :: tail =>
    { s with
      sentList := { head with sacked := false, retrans := false, lost := true } :: tail
      sackedOut := if head.sacked then s.sackedOut - head.size else s.sackedOut
      retrans := if head.retrans then s.retrans - head.size else s.retrans
      lostOut := if head.lost then s.lostOut else s.lostOut + head.size }

def deleteRetransmittedFlagFromHead : TcpTxBuffer :=
  if s.sentSize == 0 then s
  else
    match s.sentList with
    | [] => s
    | head :: tail =>
      if head.retrans then
        { s with sentList := { head with retrans := false } :: tail, retrans := s.retrans - head.size }
      else s

def resetRenoSack : TcpTxBuffer :=
  { s with
    sackedOut := 0
    sentList := s.sentList.map fun t => { t with sacked := false }
    highestSack := (none, 0) }

def resetSentList : TcpTxBuffer :=
  { s with
    appList := (s.sentList.map fun t => { t with retrans := false, sacked := false, lost := false }) ++ s.appList
    sentList := []
    sentSize := 0
    lostOut := 0
    retrans := 0
    sackedOut := 0
    highestSack := (none, 0) }

def resetLastSegmentSent : TcpTxBuffer :=
  match s.sentList.getLast? with
  | none => s
  | some item =>
    { s with
      sentList := s.sentList.dropLast
      sentSize := s.sentSize - item.size
      retrans := if item.retrans then s.retrans - item.size else s.retrans
      appList := item :: s.appList }

/-- The loop of `SetSentListLost`, with `m_lostOut`. -/
def setLost (resetSack : Bool) (lostOut : UInt32) : List TcpTxItem → List TcpTxItem × UInt32
  | [] => ([], lostOut)
  | t :: rest =>
    let r :=
      if resetSack then ({ t with sacked := false, lost := true }, lostOut)
      else if t.lost then (t, lostOut + t.size)
      else if ! t.sacked then ({ t with lost := true }, lostOut + t.size)
      else (t, lostOut)
    let r' := setLost resetSack r.2 rest
    ({ r.1 with retrans := false } :: r'.1, r'.2)

def setSentListLost (resetSack : Bool) : Option TcpTxBuffer :=
  let s := if resetSack then
      { s with retrans := 0, sackedOut := 0, lostOut := s.sentSize, highestSack := (none, 0) }
    else { s with retrans := 0, lostOut := 0 }
  let r := setLost resetSack s.lostOut s.sentList
  let s := { s with sentList := r.1, lostOut := r.2 }
  if s.sentSize ≥ s.sackedOut + s.lostOut then some s else none

/-! ## Acknowledgements -/

def removeFromCounts (item : TcpTxItem) (size : UInt32) : Option TcpTxBuffer :=
  if (item.sacked && decide (s.sackedOut < size)) || (item.retrans && decide (s.retrans < size)) ||
      (item.lost && decide (s.lostOut < size)) then none
  else
    some { s with
            sackedOut := if item.sacked then s.sackedOut - size else s.sackedOut
            retrans := if item.retrans then s.retrans - size else s.retrans
            lostOut := if item.lost then s.lostOut - size else s.lostOut }

def discardLoop : ℕ → TcpTxBuffer → UInt32 → Option TcpTxBuffer
  | 0, _, _ => none
  | fuel + 1, s, offset =>
    if s.size == 0 || offset == 0 then some s
    else
      (match s.sentList with
        | [] => (s.copyFromSequence offset s.firstByteSeq).bind fun r => r.1.map fun _ => r.2
        | _ => some s).bind fun s =>
          match s.sentList with
          | [] => none
          | item :: rest =>
            if item.startSeq == s.firstByteSeq then
              if offset ≥ item.size then
                ({ s with
                    size := s.size - item.size
                    sentSize := s.sentSize - item.size
                    firstByteSeq := s.firstByteSeq + item.size
                    sentList := rest }.removeFromCounts item item.size).bind fun s => discardLoop fuel s (offset - item.size)
              else
                let item' := { item with packet := item.packet.drop offset.toNat, startSeq := item.startSeq + offset }
                { s with
                  size := s.size - offset
                  sentSize := s.sentSize - offset
                  firstByteSeq := s.firstByteSeq + offset
                  sentList := item' :: rest }.removeFromCounts item' offset
            else none

def moveSackFromHead : Option TcpTxBuffer :=
  match s.sentList with
  | [] => some s
  | head :: tail =>
    if head.sacked then
      if head.lost then none
      else
        ({ s with
            sentList := { head with sacked := false } :: tail
            sackedOut := s.sackedOut - head.size }.addRenoSack).map markHeadAsLost
    else some s

def discardUpTo (seq : SequenceNumber32) : Option TcpTxBuffer :=
  if ge s.firstByteSeq seq then some s
  else
    (discardLoop (s.sentList.length + s.appList.length + 2) s (sub seq s.firstByteSeq).toUInt32).bind fun s =>
      let s := if s.size == 0 then { s with firstByteSeq := seq } else s
      s.moveSackFromHead.bind fun s =>
        if s.sentList.head?.all fun head => head.startSeq == seq then
          let s := if le s.highestSack.2 s.firstByteSeq then { s with highestSack := (none, 0) } else s
          if ge s.firstByteSeq seq && decide (s.sentSize ≥ s.sackedOut + s.lostOut) then some s else none
        else none

/-- What `Update` changes beside the list. -/
structure Board where
  lostOut : UInt32
  sackedOut : UInt32
  bytesSacked : UInt32
  highestSack : Option ℕ × SequenceNumber32

def updateBlock (block : SackBlock) : SequenceNumber32 → Board → List TcpTxItem → Option (List TcpTxItem × Board)
  | _, b, [] => some ([], b)
  | beginOfCurrentPacket, b, t :: rest =>
    if ge beginOfCurrentPacket block.1 && le (beginOfCurrentPacket + t.size) block.2 then
      if t.sacked then
        if t.lost then none
        else (updateBlock block (beginOfCurrentPacket + t.size) b rest).map fun r => (t :: r.1, r.2)
      else
        let b := { b with
                    lostOut := if t.lost then b.lostOut - t.size else b.lostOut
                    sackedOut := b.sackedOut + t.size
                    bytesSacked := b.bytesSacked + t.size
                    highestSack :=
                      if b.highestSack.1.isNone || le b.highestSack.2 (beginOfCurrentPacket + t.size) then
                        (some t.id, beginOfCurrentPacket)
                      else b.highestSack }
        (updateBlock block (beginOfCurrentPacket + t.size) b rest).map fun r =>
          ({ t with lost := false, sacked := true } :: r.1, r.2)
    else if gt (beginOfCurrentPacket + t.size) block.2 then some (t :: rest, b)
    else (updateBlock block (beginOfCurrentPacket + t.size) b rest).map fun r => (t :: r.1, r.2)

def updateBlocks (firstByteSeq : SequenceNumber32) (sentSize : UInt32) :
    List SackBlock → List TcpTxItem → Board → Option (List TcpTxItem × Board × Bool)
  | [], l, b => some (l, b, false)
  | block :: rest, l, b =>
    if lt (firstByteSeq + sentSize) block.1 then some (l, b, true)
    else (updateBlock block firstByteSeq b l).bind fun r => updateBlocks firstByteSeq sentSize rest r.1 r.2

/-- A turn of the loop of `UpdateLostCount`, from the last segment on: the segments, how many are sacked, and
`m_lostOut`. -/
def lostScan (dupAckThresh lostOut : UInt32) : List TcpTxItem → List TcpTxItem × UInt32 × UInt32
  | [] => ([], 0, lostOut)
  | t :: rest =>
    let r := lostScan dupAckThresh lostOut rest
    let sacked := if t.sacked then r.2.1 + 1 else r.2.1
    if sacked ≥ dupAckThresh && ! t.sacked && ! t.lost then ({ t with lost := true } :: r.1, sacked, r.2.2 + t.size)
    else (t :: r.1, sacked, r.2.2)

/-- The segments up to an iterator, and those behind. -/
def splitAfter (id : ℕ) : List TcpTxItem → Option (List TcpTxItem × List TcpTxItem)
  | [] => none
  | t :: rest => if t.id = id then some ([t], rest) else (splitAfter id rest).map fun r => (t :: r.1, r.2)

def updateLostCount : Option TcpTxBuffer :=
  s.highestSack.1.bind fun id =>
    (splitAfter id s.sentList).bind fun r =>
      match r.1 with
      | [] => none
      | head :: tail =>
        let scan := lostScan s.dupAckThresh s.lostOut tail
        let mark := scan.2.1 ≥ s.dupAckThresh && ! head.lost
        some { s with
                sentList := (if mark then { head with lost := true } else head) :: (scan.1 ++ r.2)
                lostOut := if mark then scan.2.2 + head.size else scan.2.2 }

def update (list : List SackBlock) : Option (UInt32 × TcpTxBuffer) :=
  (updateBlocks s.firstByteSeq s.sentSize list s.sentList ⟨s.lostOut, s.sackedOut, 0, s.highestSack⟩).bind fun r =>
    let s := { s with
                sentList := r.1
                lostOut := r.2.1.lostOut
                sackedOut := r.2.1.sackedOut
                highestSack := r.2.1.highestSack }
    if r.2.2 then some (r.2.1.bytesSacked, s)
    else
      (if r.2.1.bytesSacked > 0 then s.updateLostCount else some s).bind fun s =>
        match s.sentList with
        | [] => none
        | head :: _ =>
          if ! head.sacked && decide (s.sentSize ≥ s.sackedOut + s.lostOut) then some (r.2.1.bytesSacked, s) else none

def bytesInFlight : Option UInt32 :=
  if s.sackedOut + s.lostOut ≤ s.sentSize then some (s.sentSize - (s.sackedOut + s.lostOut) + s.retrans) else none

end TcpTxBuffer

end Ns3Ndn.Internet
