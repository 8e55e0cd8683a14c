import Ns3Ndn.Lib.GuardedWrites
import Ns3Ndn.Network.Buffer
import Ns3Ndn.Network.NixVector
import Ns3Ndn.Network.PacketTagList

/-!
# Packets as bytes

`Packet::Serialize` of `network/model/packet.cc`: five parts, each with its length in front and filled up to whole words, and
the `Serialize` of each of them. Every write is behind a test of the bytes that are written so far. `Packet::Serialize` adds up
the sizes of the parts for it, but neither their length words nor what they are filled up with.

* `Admits`: the total of the sizes lets a part through;
* **`Packet.respectsMaxSize_iff`**: the limits that the packet keeps.
-/

namespace Ns3Ndn

open GuardedLib SliceLib

/-- What is written at once: a word or some bytes. -/
inductive Datum where
  | u8 (x : BitVec 8)
  | u16 (x : BitVec 16)
  | u32 (x : BitVec 32)
  | u64 (x : BitVec 64)
  | raw (bytes : List UInt8)
  deriving DecidableEq

def Datum.size : Datum → ℕ
  | .u8 _ => 1
  | .u16 _ => 2
  | .u32 _ => 4
  | .u64 _ => 8
  | .raw bytes => bytes.length

def roundUp (size : ℕ) : ℕ := (size + 3) % 2 ^ 32 / 4 * 4

def word (n : ℕ) : Put Datum := .put (.u32 n) 4

def padded (bytes : List UInt8) : Put Datum := .put (.raw bytes) (roundUp bytes.length)

abbrev Written := List (Write Datum) × Bool

/-! ## The parts -/

namespace NixVector

def GetSerializedSize (v : NixVector) : ℕ := (4 + 4 + 4 + 4 * v.m_nixVector.length) % 2 ^ 32

def puts (v : NixVector) : List (Put Datum) :=
  [word v.m_used, word v.m_currentVectorBitSize, word v.m_totalBitSize] ++ v.m_nixVector.map fun w => .put (.u32 w) 4

def Serialize (v : NixVector) (maxSize : ℕ) : Written := run (2 ^ 32) maxSize 0 0 v.puts

end NixVector

/-- `ByteTagList::Iterator::Item`, with the hash of its `tid`. -/
structure ByteTag where
  hash : BitVec 32
  start : ℤ
  end_ : ℤ
  data : List UInt8

/-- `ByteTagList`: the tags as they were added, and `m_adjustment`. -/
structure ByteTagList where
  tags : List ByteTag := []
  adjustment : ℤ := 0

namespace ByteTagList

def offsetMax : ℤ := 2 ^ 31 - 1

def items (l : ByteTagList) : List ByteTag :=
  (l.tags.filter fun t => ! (t.start + l.adjustment ≥ offsetMax || t.end_ + l.adjustment ≤ 0)).map fun t =>
    { t with start := max (t.start + l.adjustment) 0, end_ := min (t.end_ + l.adjustment) offsetMax }

def GetSerializedSize (l : ByteTagList) : ℕ :=
  (4 + (l.items.map fun t => 4 + 3 * 4 + roundUp t.data.length).sum) % 2 ^ 32

/-- The tags behind the first `n`, each with the change of `numberOfTags` after it. -/
def putsFrom : ℕ → List ByteTag → List (Put Datum)
  | _, [] => []
  | n, t :: ts =>
    [.put (.u32 t.hash) 4, word t.data.length, .put (.u32 (BitVec.ofInt 32 t.start)) 4,
      .put (.u32 (BitVec.ofInt 32 t.end_)) 4, padded t.data, .patch 0 (.u32 (n + 1 : ℕ))] ++ putsFrom (n + 1) ts

def Serialize (l : ByteTagList) (maxSize : ℕ) : Written := run (2 ^ 32) maxSize 0 0 (word 0 :: putsFrom 0 l.items)

end ByteTagList

namespace PacketTagList

abbrev Tags := List Tag

def GetSerializedSize (l : Tags) : ℕ := (4 + (l.map fun t => 4 + 4 + roundUp t.data.length).sum) % 2 ^ 32

/-- The tags behind the first `n`, each with the change of `numberOfTags` after it. -/
def putsFrom (hash : ℕ → BitVec 32) : ℕ → Tags → List (Put Datum)
  | _, [] => []
  | n, t :: ts =>
    [word t.data.length, .put (.u32 (hash t.tid)) 4, padded t.data, .patch 0 (.u32 (n + 1 : ℕ))] ++ putsFrom hash (n + 1) ts

def Serialize (hash : ℕ → BitVec 32) (l : Tags) (maxSize : ℕ) : Written :=
  run (2 ^ 32) maxSize 0 0 (word 0 :: putsFrom hash 0 l)

end PacketTagList

structure MetadataItem where
  name : Option (List UInt8)
  isBig : Bool
  size : BitVec 32
  chunkUid : BitVec 16
  fragmentStart : BitVec 32
  fragmentEnd : BitVec 32
  packetUid : BitVec 64

/-- `PacketMetadata`: `m_enable` is for all packets, and items may be there without it. -/
structure PacketMetadata where
  enable : Bool
  packetUid : BitVec 64
  items : List MetadataItem := []

namespace PacketMetadata

/-- `tid.GetName ()` -/
def nameOf (item : MetadataItem) : List UInt8 := item.name.getD []

def GetSerializedSize (m : PacketMetadata) : ℕ :=
  if ! m.enable then 8
  else (8 + (m.items.map fun item => 4 + (nameOf item).length + (1 + 4 + 2 + 4 + 4 + 8)).sum) % 2 ^ 32

def itemPuts (item : MetadataItem) : List (Put Datum) :=
  (match item.name with
    | some name => [word name.length, .put (.raw name) name.length]
    | none => [word 0]) ++
  [.put (.u8 (BitVec.ofNat 8 item.isBig.toNat)) 1, .put (.u32 item.size) 4, .put (.u16 item.chunkUid) 2,
    .put (.u32 item.fragmentStart) 4, .put (.u32 item.fragmentEnd) 4, .put (.u64 item.packetUid) 8]

def Serialize (m : PacketMetadata) (maxSize : ℕ) : Written :=
  run (2 ^ 32) maxSize 0 0 (.put (.u64 m.packetUid) 8 :: m.items.flatMap itemPuts)

end PacketMetadata

namespace Network.Buffer

variable (b : Buffer)

def GetSerializedSize : ℕ :=
  (4 + 4 + roundUp (b.zeroAreaStart - b.start) + 4 + roundUp (b.end_ - b.zeroAreaEnd)) % 2 ^ 32

/-- The bytes behind the zero area are in the block right behind those before it. -/
def puts (bytes : List UInt8) : List (Put Datum) :=
  let dataStartLength := b.zeroAreaStart - b.start
  let dataEndLength := b.end_ - b.zeroAreaEnd
  [word (b.zeroAreaEnd - b.zeroAreaStart), word dataStartLength,
    .put (.raw (slice bytes b.start (b.start + dataStartLength))) (roundUp dataStartLength), word dataEndLength,
    .put (.raw (slice bytes b.zeroAreaStart (b.zeroAreaStart + dataEndLength))) (roundUp dataEndLength)]

def Serialize (bytes : List UInt8) (maxSize : ℕ) : Written := run (2 ^ 32) maxSize 0 0 (b.puts bytes)

end Network.Buffer

/-! ## The packet -/

/-- A part, and what `Packet::Serialize` does with it. -/
structure Part where
  /-- What is added to `size` for it. -/
  counted : ℕ
  /-- How far `p` goes on. -/
  advance : ℕ
  /-- From `p` on. -/
  writes : List (Write Datum)
  complete : Bool

/-- A part with its length word, which is for itself too. -/
def Part.ofSize (size : ℕ) (body : Written) : Part :=
  ⟨size, 4 + roundUp size, (0, .u32 (size + 4 : ℕ)) :: shift 4 body.1, body.2⟩

structure Packet where
  m_nixVector : Option NixVector
  m_byteTagList : ByteTagList
  m_packetTagList : PacketTagList.Tags
  m_metadata : PacketMetadata
  m_buffer : Network.Buffer
  /-- The block of `m_buffer`. -/
  m_data : List UInt8

/-- The tests one after the other. -/
def serializeParts (maxSize : ℕ) : ℕ → ℕ → List Part → List (Write Datum) × ℕ
  | _, _, [] => ([], 1)
  | size, p, part :: rest =>
    if (size + part.counted) % 2 ^ 32 ≤ maxSize then
      if part.complete then
        let r := serializeParts maxSize ((size + part.counted) % 2 ^ 32) (p + part.advance) rest
        (shift p part.writes ++ r.1, r.2)
      else (shift p part.writes, 0)
    else ([], 0)

namespace Packet

variable (hash : ℕ → BitVec 32) (q : Packet)

def nixPart : Part :=
  match q.m_nixVector with
  | some v => .ofSize v.GetSerializedSize (v.Serialize v.GetSerializedSize)
  | none => ⟨4, 4, [(0, .u32 4)], true⟩

def byteTagPart : Part :=
  .ofSize q.m_byteTagList.GetSerializedSize (q.m_byteTagList.Serialize q.m_byteTagList.GetSerializedSize)

def packetTagPart : Part :=
  let packetTagSize := PacketTagList.GetSerializedSize q.m_packetTagList
  .ofSize packetTagSize (PacketTagList.Serialize hash q.m_packetTagList packetTagSize)

def metadataPart : Part :=
  .ofSize q.m_metadata.GetSerializedSize (q.m_metadata.Serialize q.m_metadata.GetSerializedSize)

def bufferPart : Part :=
  .ofSize q.m_buffer.GetSerializedSize (q.m_buffer.Serialize q.m_data q.m_buffer.GetSerializedSize)

def parts : List Part := [q.nixPart, q.byteTagPart, q.packetTagPart hash, q.metadataPart, q.bufferPart]

def Serialize (maxSize : ℕ) : List (Write Datum) × ℕ := serializeParts maxSize 0 0 (q.parts hash)

def GetSerializedSize : ℕ :=
  ((match q.m_nixVector with
      | some v => roundUp v.GetSerializedSize + 4
      | none => 4) +
    roundUp (PacketTagList.GetSerializedSize q.m_packetTagList) + 4 +
    roundUp q.m_byteTagList.GetSerializedSize + 4 +
    roundUp q.m_metadata.GetSerializedSize + 4 +
    roundUp q.m_buffer.GetSerializedSize + 4) % 2 ^ 32

/-- Only bytes below `maxSize` are written, and less room than the packet needs gives 0. -/
def RespectsMaxSize (maxSize : ℕ) : Prop :=
  Within Datum.size maxSize (q.Serialize hash maxSize).1 ∧
    (maxSize < q.GetSerializedSize → (q.Serialize hash maxSize).2 = 0)

end Packet

/-! ## The limits that are kept -/

def offset (ps : List Part) : ℕ := (ps.map Part.advance).sum

def Part.extent (part : Part) : ℕ := GuardedLib.extent Datum.size part.writes

/-- The totals from `size` on are within the limit, and all parts before the last are complete. -/
def Admits (maxSize size : ℕ) (ps : List Part) : Prop :=
  (∀ n < ps.length, (size + ((ps.take (n + 1)).map Part.counted).sum) % 2 ^ 32 ≤ maxSize) ∧
    ∀ part ∈ ps.dropLast, part.complete

variable {maxSize size p : ℕ} {part : Part} {ps rest : List Part}

theorem admits_singleton : Admits maxSize size [part] ↔ (size + part.counted) % 2 ^ 32 ≤ maxSize := by
  simp [Admits]

theorem admits_cons (hps : ps ≠ []) :
    Admits maxSize size (part :: ps) ↔
      (size + part.counted) % 2 ^ 32 ≤ maxSize ∧ part.complete ∧
        Admits maxSize ((size + part.counted) % 2 ^ 32) ps := by
  unfold Admits
  rw [List.dropLast_cons_of_ne_nil hps, List.forall_mem_cons]
  have hsum (n : ℕ) : (size + (((part :: ps).take (n + 1 + 1)).map Part.counted).sum) % 2 ^ 32 =
      ((size + part.counted) % 2 ^ 32 + ((ps.take (n + 1)).map Part.counted).sum) % 2 ^ 32 := by
    rw [List.take_succ_cons, List.map_cons, List.sum_cons, ← Nat.add_assoc, Nat.mod_add_mod]
  have hzero : (size + (((part :: ps).take (0 + 1)).map Part.counted).sum) % 2 ^ 32 = (size + part.counted) % 2 ^ 32 := by
    simp
  constructor
  · rintro ⟨htotals, hpart, hcomplete⟩
    refine ⟨hzero ▸ htotals 0 (by simp), hpart, fun n hn => ?_, hcomplete⟩
    rw [← hsum]
    exact htotals (n + 1) (by simpa using hn)
  · rintro ⟨hfirst, hpart, htotals, hcomplete⟩
    refine ⟨fun n hn => ?_, hpart, hcomplete⟩
    cases n with
    | zero => rwa [hzero]
    | succ n =>
      rw [hsum]
      exact htotals n (by simpa using hn)

theorem within_serializeParts (maxSize : ℕ) : ∀ (parts : List Part) (size p : ℕ),
    Within Datum.size maxSize (serializeParts maxSize size p parts).1 ↔
      ∀ ps part, ps ++ [part] <+: parts → Admits maxSize size (ps ++ [part]) →
        Within Datum.size maxSize (shift (p + offset ps) part.writes) := by
  intro parts
  induction parts with
  | nil =>
    intro size p
    simp [serializeParts]
  | cons first rest ih =>
    intro size p
    have hsplit : (∀ ps part, ps ++ [part] <+: first :: rest → Admits maxSize size (ps ++ [part]) →
          Within Datum.size maxSize (shift (p + offset ps) part.writes)) ↔
        ((size + first.counted) % 2 ^ 32 ≤ maxSize → Within Datum.size maxSize (shift p first.writes)) ∧
          ∀ ps part, ps ++ [part] <+: rest → Admits maxSize size (first :: (ps ++ [part])) →
            Within Datum.size maxSize (shift (p + offset (first :: ps)) part.writes) := by
      constructor
      · intro h
        refine ⟨fun hfirst => ?_, fun ps part hps => ?_⟩
        · exact h [] first (by simp) (admits_singleton.2 hfirst)
        · exact h (first :: ps) part (by simpa using hps)
      · rintro ⟨hfirst, hrest⟩ ps part hps
        cases ps with
        | nil =>
          obtain rfl : part = first := by simpa using hps
          exact fun hadmits => hfirst (admits_singleton.1 hadmits)
        | cons a ps =>
          obtain ⟨rfl, htail⟩ := List.cons_prefix_cons.1 hps
          exact hrest ps part htail
    rw [hsplit, serializeParts]
    have hoffset (ps : List Part) : p + offset (first :: ps) = p + first.advance + offset ps := by
      simp only [offset, List.map_cons, List.sum_cons, Nat.add_assoc]
    have hcons (ps : List Part) (part : Part) := @admits_cons maxSize size first (ps ++ [part]) (by simp)
    simp only [hcons, hoffset]
    by_cases hfirst : (size + first.counted) % 2 ^ 32 ≤ maxSize
    · by_cases hcomplete : first.complete
      · rw [if_pos hfirst, if_pos hcomplete, within_append, ih]
        simp only [hfirst, hcomplete, true_and, true_imp_iff]
      · rw [if_pos hfirst, if_neg hcomplete]
        simp only [hfirst, hcomplete, true_imp_iff, false_and, and_false, false_imp_iff, implies_true, and_true,
          Bool.false_eq_true]
    · rw [if_neg hfirst]
      simp only [hfirst, false_and, false_imp_iff, implies_true, and_true, within_nil]

theorem serializeParts_ne_zero_iff (maxSize : ℕ) : ∀ (parts : List Part) (size p : ℕ),
    (serializeParts maxSize size p parts).2 ≠ 0 ↔ Admits maxSize size parts ∧ ∀ part ∈ parts, part.complete := by
  intro parts
  induction parts with
  | nil =>
    intro size p
    simp [serializeParts, Admits]
  | cons first rest ih =>
    intro size p
    rw [serializeParts]
    have hcons : Admits maxSize size (first :: rest) ∧ (∀ part ∈ first :: rest, part.complete) ↔
        (size + first.counted) % 2 ^ 32 ≤ maxSize ∧ first.complete ∧
          Admits maxSize ((size + first.counted) % 2 ^ 32) rest ∧ ∀ part ∈ rest, part.complete := by
      rw [List.forall_mem_cons]
      by_cases hrest : rest = []
      · subst hrest
        simp [Admits]
      · rw [admits_cons hrest]
        tauto
    rw [hcons]
    by_cases hfirst : (size + first.counted) % 2 ^ 32 ≤ maxSize
    · by_cases hcomplete : first.complete
      · rw [if_pos hfirst, if_pos hcomplete, ih]
        simp only [hfirst, hcomplete, true_and]
      · rw [if_pos hfirst, if_neg hcomplete]
        simp [hcomplete]
    · rw [if_neg hfirst]
      simp only [hfirst, false_and, ne_eq, not_true_eq_false]

/-! ## The tests inside of the parts -/

namespace Packet

variable (hash : ℕ → BitVec 32) (q : Packet)

theorem extent_ofSize (n : ℕ) (body : Written) : 0 < (Part.ofSize n body).extent := by
  unfold Part.extent Part.ofSize
  simp [writeEnd, Datum.size]

theorem extent_pos (h : part ∈ q.parts hash) : 0 < part.extent := by
  simp only [parts, List.mem_cons, List.not_mem_nil, or_false] at h
  rcases h with rfl | rfl | rfl | rfl | rfl
  · unfold nixPart
    split
    · apply extent_ofSize
    · simp [Part.extent, writeEnd, Datum.size]
  all_goals apply extent_ofSize

/-- Every part that its total lets through ends below `maxSize`, and so does the whole packet when all are let through. -/
def Covered (maxSize : ℕ) : Prop :=
  (∀ ps part, ps ++ [part] <+: q.parts hash → Admits maxSize 0 (ps ++ [part]) → offset ps + part.extent ≤ maxSize) ∧
    (Admits maxSize 0 (q.parts hash) ∧ (∀ part ∈ q.parts hash, part.complete) → q.GetSerializedSize ≤ maxSize)

theorem respectsMaxSize_iff (maxSize : ℕ) : q.RespectsMaxSize hash maxSize ↔ q.Covered hash maxSize := by
  have hreturn : (maxSize < q.GetSerializedSize → (q.Serialize hash maxSize).2 = 0) ↔
      (Admits maxSize 0 (q.parts hash) ∧ (∀ part ∈ q.parts hash, part.complete) → q.GetSerializedSize ≤ maxSize) := by
    rw [← serializeParts_ne_zero_iff maxSize (q.parts hash) 0 0]
    unfold Serialize
    rw [← not_lt]
    tauto
  unfold RespectsMaxSize Covered
  rw [hreturn]
  refine and_congr_left fun _ => ?_
  unfold Serialize
  rw [within_serializeParts]
  refine forall_congr' fun ps => forall_congr' fun part => forall_congr' fun hps => forall_congr' fun _ => ?_
  have hpos : 0 < part.extent := q.extent_pos hash (hps.subset (by simp))
  rw [within_iff, extent_shift, Nat.zero_add]
  unfold Part.extent at hpos ⊢
  rw [if_neg hpos.ne']

/-- A packet without tags, metadata and bytes: its parts count 32 bytes and take 48. -/
theorem not_respectsMaxSize_empty :
    ¬ RespectsMaxSize (fun _ => 0) ⟨none, {}, [], ⟨false, 0, []⟩, ⟨0, 0, 0, 0, 0, 0⟩, []⟩ 32 := by
  intro h
  have hreturn := h.2
  revert hreturn
  decide

end Packet

end Ns3Ndn
