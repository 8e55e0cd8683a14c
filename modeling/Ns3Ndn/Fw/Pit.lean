import Ns3Ndn.Lib.OrdMap
import Ns3Ndn.Face.LpPacket
import Ns3Ndn.Name

/-!
# Packets, faces and the tables of the forwarder

The data of `NFD/daemon/fw` and `NFD/daemon/table`: Interest, Data and Nack packets with the fields
and tags the pipelines read, faces, PIT entries with their records, and the FIB. Times are in
nanoseconds.
-/

namespace Ns3Ndn

open OrdLib

abbrev FaceId := ℕ

/-! ## Faces and packets -/

inductive FaceScope where
  | nonLocal
  | isLocal
deriving DecidableEq

inductive LinkType where
  | pointToPoint
  | multiAccess
  | adHoc
deriving DecidableEq

inductive TransportState where
  | up
  | down
  | closing
  | failed
  | closed
deriving DecidableEq

structure Face where
  scope : FaceScope
  linkType : LinkType
  state : TransportState := .up
deriving DecidableEq

structure Interest where
  name : Name
  canBePrefix : Bool := false
  mustBeFresh : Bool := false
  forwardingHint : List Name := []
  nonce : UInt32
  lifetime : ℕ := 4000
  hopLimit : Option UInt8 := none
  nextHopFaceId : Option FaceId := none
  pitToken : Option Bytes := none
deriving DecidableEq

/-- A Data packet. `digest` stands for the SHA-256 of the packet, the freshness period is in
milliseconds. -/
structure Data where
  name : Name
  digest : Bytes := []
  freshnessPeriod : ℕ := 0
  pitToken : Option Bytes := none
deriving DecidableEq

inductive NackReason where
  | none
  | congestion
  | duplicate
  | noRoute
deriving DecidableEq

structure Nack where
  interest : Interest
  reason : NackReason
deriving DecidableEq

/-- `tlv::ImplicitSha256DigestComponent`. -/
def Component.isImplicitSha256Digest (c : Component) : Bool := c.type == 1

def Data.fullName (data : Data) : Name := data.name ++ [⟨1, data.digest⟩]

/-- `Interest::matchesData`. -/
def Interest.matchesData (interest : Interest) (data : Data) : Bool :=
  (if interest.name.length = data.name.length + 1 then
      interest.name.getLast?.any Component.isImplicitSha256Digest && interest.name == data.fullName
    else if interest.canBePrefix then interest.name.isPrefixOf data.name
    else interest.name == data.name) &&
  ! (interest.mustBeFresh && data.freshnessPeriod == 0)

def Component.generic (value : Bytes) : Component := ⟨8, value⟩

def LOCALHOST : Name := [.generic [108, 111, 99, 97, 108, 104, 111, 115, 116]]

def LOCALHOP : Name := [.generic [108, 111, 99, 97, 108, 104, 111, 112]]

/-! ## PIT entries -/

structure InRecord where
  face : FaceId
  lastNonce : UInt32
  lastRenewed : ℕ
  expiry : ℕ
  interest : Interest
deriving DecidableEq

structure OutRecord where
  face : FaceId
  lastNonce : UInt32
  lastRenewed : ℕ
  expiry : ℕ
  incomingNack : Option NackReason := none
deriving DecidableEq

structure PitEntry where
  interest : Interest
  inRecords : List InRecord := []
  outRecords : List OutRecord := []
  isSatisfied : Bool := false
  dataFreshnessPeriod : ℕ := 0
  expiryTimer : Option ℕ := none
deriving DecidableEq

/-- One millisecond. -/
def ms : ℕ := 1000000

/-- `FaceRecord::update`: the expiry of a record, with the lifetime limited to ten days. -/
def recordExpiry (now : ℕ) (interest : Interest) : ℕ :=
  now + min interest.lifetime (10 * 24 * 60 * 60 * 1000) * ms

/-- A change of some elements keeps what it does not change. -/
theorem map_replaceF {α β : Type} {g : α → β} {f : α → Option α}
    (h : ∀ a a', f a = some a' → g a' = g a) (l : List α) : (l.replaceF f).map g = l.map g := by
  induction l with
  | nil => rfl
  | cons a l ih =>
    rw [List.replaceF_cons]
    cases hf : f a with
    | none => simp [ih]
    | some a' => simp [h a a' hf]

namespace PitEntry

variable (e : PitEntry)

/-- `canMatch`; the forwarding hint is not compared. -/
def canMatch (interest : Interest) : Bool :=
  e.interest.name == interest.name && e.interest.canBePrefix == interest.canBePrefix &&
    e.interest.mustBeFresh == interest.mustBeFresh

def getInRecord (face : FaceId) : Option InRecord := e.inRecords.find? (·.face == face)

def getOutRecord (face : FaceId) : Option OutRecord := e.outRecords.find? (·.face == face)

def insertOrUpdateInRecord (now : ℕ) (face : FaceId) (interest : Interest) : PitEntry :=
  let record : InRecord := ⟨face, interest.nonce, now, recordExpiry now interest, interest⟩
  if e.inRecords.any (·.face == face) then
    { e with inRecords := e.inRecords.replaceF fun r => if r.face == face then some record else none }
  else { e with inRecords := record :: e.inRecords }

def insertOrUpdateOutRecord (now : ℕ) (face : FaceId) (interest : Interest) : PitEntry :=
  if e.outRecords.any (·.face == face) then
    { e with
      outRecords := e.outRecords.replaceF fun r =>
        if r.face == face then
          some ⟨face, interest.nonce, now, recordExpiry now interest, r.incomingNack⟩
        else none }
  else
    { e with
      outRecords := ⟨face, interest.nonce, now, recordExpiry now interest, none⟩ :: e.outRecords }

def deleteInRecord (face : FaceId) : PitEntry :=
  { e with inRecords := e.inRecords.eraseP (·.face == face) }

def deleteOutRecord (face : FaceId) : PitEntry :=
  { e with outRecords := e.outRecords.eraseP (·.face == face) }

/-- The name of the name tree node that holds the entry: without an implicit digest, and at most
`NameTree::getMaxDepth()` long. -/
def nodeName : Name :=
  let name := e.interest.name
  name.take (min
    (name.length - if name.getLast?.any Component.isImplicitSha256Digest then 1 else 0) 32)

end PitEntry

abbrev Pit := OrdMap ℕ PitEntry

/-- `findAllDataMatches`: from the longest name to the root, at each node in the order in which the
node lists its entries. -/
def Pit.findAllDataMatches (pit : Pit) (order : List ℕ) (data : Data) : List ℕ :=
  (List.range (min data.name.length 32 + 1)).reverse.flatMap fun i =>
    order.filter fun id => (pit.find? id).any fun e =>
      e.nodeName == data.name.take i && e.interest.matchesData data

/-- `erasePitEntry`, on the lists of all nodes put together: the last entry of the node takes the
place of the erased one. -/
def Pit.eraseFromNode (pit : Pit) (order : List ℕ) (id : ℕ) : List ℕ :=
  let node := order.filter fun id' =>
    (pit.find? id').map PitEntry.nodeName == (pit.find? id).map PitEntry.nodeName
  let last := node.getLastD id
  if last = id then order.erase id else (order.erase last).map fun id' => if id' = id then last else id'

/-! ## FIB -/

structure NextHop where
  face : FaceId
  cost : ℕ
deriving DecidableEq

abbrev Fib := Name → Option (List NextHop)

namespace Fib

variable (fib : Fib)

/-- `findLongestPrefixMatch` among the first `depth` components. Without a match it is the empty
entry. -/
def findLongestPrefixMatchFrom (name : Name) : (depth : ℕ) → Name × List NextHop
  | 0 => ([], (fib []).getD [])
  | depth + 1 =>
    match fib (name.take (depth + 1)) with
    | some nextHops => (name.take (depth + 1), nextHops)
    | none => findLongestPrefixMatchFrom name depth

def findLongestPrefixMatch (name : Name) : Name × List NextHop :=
  fib.findLongestPrefixMatchFrom name (min name.length 32)

/-- `Entry::addOrUpdateNextHop`, with the sort by cost. -/
def addOrUpdateNextHop (nextHops : List NextHop) (face : FaceId) (cost : ℕ) : List NextHop :=
  (if nextHops.any (·.face == face) then
      nextHops.replaceF fun nh => if nh.face == face then some ⟨face, cost⟩ else none
    else nextHops ++ [⟨face, cost⟩]).insertionSort fun a b => a.cost ≤ b.cost

/-- `Fib::removeNextHop`: an entry without next hops is erased. -/
def removeNextHop (prefixName : Name) (face : FaceId) : Fib :=
  match fib prefixName with
  | none => fib
  | some nextHops =>
    if nextHops.any (·.face == face) then
      let nextHops := nextHops.eraseP (·.face == face)
      Function.update fib prefixName (if nextHops.isEmpty then none else some nextHops)
    else fib

end Fib

/-- The loop of `Strategy::lookupFib` over the delegations. -/
def lookupDelegations (fib : Fib) : List Name → List NextHop
  | [] => []
  | delegation :: rest =>
    let (_, nextHops) := fib.findLongestPrefixMatch delegation
    if nextHops.isEmpty then lookupDelegations fib rest else nextHops

/-- `Strategy::lookupFib`: the next hops for a PIT entry. -/
def lookupFib (fib : Fib) (e : PitEntry) : List NextHop :=
  if e.interest.forwardingHint.isEmpty then (fib.findLongestPrefixMatch e.interest.name).2
  else lookupDelegations fib e.interest.forwardingHint

/-! ## Algorithms of strategies -/

/-- `fw::wouldViolateScope`. -/
def wouldViolateScope (inFace : Face) (interest : Interest) (outFace : Face) : Bool :=
  if outFace.scope = .isLocal then false
  else if LOCALHOST.isPrefixOf interest.name then true
  else if LOCALHOP.isPrefixOf interest.name then inFace.scope != .isLocal
  else false

/-- `fw::isNextHopEligible`, without `wantUnused`. -/
def isNextHopEligible (inId : FaceId) (inFace : Face) (interest : Interest) (outId : FaceId)
    (outFace : Face) : Bool :=
  ! (outId == inId && outFace.linkType != .adHoc || wouldViolateScope inFace interest outFace)

/-- `fw::hasPendingOutRecords`. -/
def hasPendingOutRecords (now : ℕ) (e : PitEntry) : Bool :=
  e.outRecords.any fun r => now ≤ r.expiry && r.incomingNack.isNone

structure DuplicateNonceWhere where
  inSame : Bool
  inOther : Bool
  outSame : Bool
  outOther : Bool
deriving DecidableEq

/-- `fw::findDuplicateNonce`. -/
def findDuplicateNonce (e : PitEntry) (nonce : UInt32) (face : FaceId) : DuplicateNonceWhere where
  inSame := e.inRecords.any fun r => r.lastNonce == nonce && r.face == face
  inOther := e.inRecords.any fun r => r.lastNonce == nonce && r.face != face
  outSame := e.outRecords.any fun r => r.lastNonce == nonce && r.face == face
  outOther := e.outRecords.any fun r => r.lastNonce == nonce && r.face != face

def DuplicateNonceWhere.isAny (dnw : DuplicateNonceWhere) : Bool :=
  dnw.inSame || dnw.inOther || dnw.outSame || dnw.outOther

end Ns3Ndn
