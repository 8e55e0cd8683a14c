import Ns3Ndn.Face.LpPacket

/-!
# Fragmentation

`NFD/daemon/face/lp-fragmenter.cpp` and `GenericLinkService::assignSequences`: a network packet that
does not fit in the MTU is cut into fragments. The first one keeps the other header fields and has
less room for payload.

* `fragmentPacket_spec`: fragmentation never fails an assertion, and what it returns.
-/

namespace Ns3Ndn

open Tlv LpPacket

/-- Maximum overhead on a single fragment: LpPacket, Sequence, and the Fragment type and length. -/
def maxSingleFragOverhead : ℕ := 1 + 9 + (1 + 1 + 8) + (1 + 9)

/-- Maximum overhead of fragmentation: LpPacket, Sequence, FragIndex, FragCount, Fragment. -/
def maxFragOverhead : ℕ := 1 + 9 + (1 + 1 + 8) + (1 + 1 + 8) + (1 + 1 + 8) + (1 + 9)

def firstHeaderSize (packet : LpPacket) : ℕ := (packet.clear tlvFragment).contentSize

/-- One round of the loop of `fragmentPacket`; `none` is an exception or a failed assertion. -/
def populateFrag (fragCount mtu : ℕ) (frag : LpPacket) (fragIndex : ℕ) (payload : Bytes) :
    Option LpPacket := do
  let frag ← frag.add tlvFragIndex (encodeNonNegativeInteger fragIndex)
  let frag ← frag.add tlvFragCount (encodeNonNegativeInteger fragCount)
  let frag := frag.set tlvFragment payload
  let size ← frag.wireSize
  if size ≤ mtu then some frag else none

/-- The loop of `fragmentPacket`. `frags` are the packets from `fragIndex` on, `rest` are the bytes
from `fragBegin` on, of which the first `size` are before `fragEnd`. -/
def populate (fragCount mtu payloadSize : ℕ) :
    (frags : List LpPacket) → (fragIndex : ℕ) → (rest : Bytes) → (size : ℕ) →
    Option (List LpPacket)
  | [], fragIndex, rest, _ => if rest = [] ∧ fragIndex = fragCount then some [] else none
  | frag :: frags, fragIndex, rest, size =>
    if rest = [] then if fragIndex = fragCount then some (frag :: frags) else none
    else do
      let frag ← populateFrag fragCount mtu frag fragIndex (rest.take size)
      let frags ← populate fragCount mtu payloadSize frags (fragIndex + 1) (rest.drop size)
        (min payloadSize (rest.drop size).length)
      some (frag :: frags)

/-- The computation of `fragCount`. -/
def countFrags (netPktSize firstPayloadSize payloadSize : ℕ) : ℕ :=
  1 + (netPktSize - firstPayloadSize) / payloadSize +
    if (netPktSize - firstPayloadSize) % payloadSize ≠ 0 then 1 else 0

/-- `LpFragmenter::fragmentPacket`. `none` stands for a failed assertion or an exception, `some none`
for a packet that is dropped with a warning. -/
def fragmentPacket (nMaxFragments : UInt64) (packet : LpPacket) (mtu : ℕ) :
    Option (Option (List LpPacket)) :=
  if packet.has tlvFragment ∧ ¬ packet.has tlvFragIndex ∧ ¬ packet.has tlvFragCount then do
    let wireSize ← packet.wireSize
    if maxSingleFragOverhead + wireSize ≤ mtu then some (some [packet])
    else do
      let netPkt ← packet.getFragment
      if maxFragOverhead + firstHeaderSize packet + 1 > mtu then some none
      else
        let firstPayloadSize := min netPkt.length (mtu - firstHeaderSize packet - maxFragOverhead)
        let payloadSize := mtu - maxFragOverhead
        let fragCount := countFrags netPkt.length firstPayloadSize payloadSize
        if fragCount > nMaxFragments.toNat then some none
        else
          (populate fragCount mtu payloadSize (packet :: List.replicate (fragCount - 1) {}) 0 netPkt
            firstPayloadSize).map some
  else none

/-- `GenericLinkService::assignSequences`, with the new `m_lastSeqNo`. -/
def assignSequences : (lastSeqNo : ℕ) → List LpPacket → List LpPacket × ℕ
  | lastSeqNo, [] => ([], lastSeqNo)
  | lastSeqNo, pkt :: pkts =>
    let seqNo := (lastSeqNo + 1) % 2 ^ 64
    let (pkts, lastSeqNo) := assignSequences seqNo pkts
    (pkt.set tlvSequence (encodeSequence seqNo) :: pkts, lastSeqNo)

/-! ## Network packets -/

/-- A network packet with other header fields, as `GenericLinkService` hands it to the fragmenter. -/
structure NetPacket where
  header : List Element
  netPkt : Bytes
  /-- The header has no field that belongs to fragmentation. -/
  header_type : ∀ e ∈ header, e.type ≠ tlvFragment ∧ e.type ≠ tlvFragIndex ∧ e.type ≠ tlvFragCount
  /-- The network packet is one TLV. -/
  isTlv : firstTlv netPkt = some netPkt

/-- Header fields that neither the fragmenter nor `assignSequences` writes. -/
def otherField (e : Element) : Bool :=
  ! [tlvFragment, tlvSequence, tlvFragIndex, tlvFragCount].contains e.type

namespace NetPacket

variable (pkt : NetPacket)

/-- The `lp::Packet` that is fragmented. -/
def toLp : LpPacket := ⟨pkt.header ++ [⟨tlvFragment, pkt.netPkt⟩]⟩

theorem netPkt_ne_nil : pkt.netPkt ≠ [] := by
  intro h
  have htlv := pkt.isTlv
  rw [h] at htlv
  cases htlv

theorem has_toLp {t : ℕ} (ht : t ≠ tlvFragment) (h : ∀ e ∈ pkt.header, e.type ≠ t) :
    pkt.toLp.has t = false := by
  have hheader : pkt.header.any (·.type == t) = false := by simpa using h
  simp [has, toLp, hheader, ht.symm]

theorem has_fragment : pkt.toLp.has tlvFragment = true := by
  simp [has, toLp]

theorem has_fragIndex : pkt.toLp.has tlvFragIndex = false :=
  pkt.has_toLp (by decide) fun e he => (pkt.header_type e he).2.1

theorem has_fragCount : pkt.toLp.has tlvFragCount = false :=
  pkt.has_toLp (by decide) fun e he => (pkt.header_type e he).2.2

theorem value?_fragment : pkt.toLp.value? tlvFragment = some pkt.netPkt := by
  have hnone : pkt.header.find? (·.type == tlvFragment) = none := by
    simpa using fun e he => (pkt.header_type e he).1
  simp [value?, toLp, List.find?_append, hnone]

theorem getFragment_toLp : pkt.toLp.getFragment = some pkt.netPkt := by
  simp [getFragment, value?_fragment, decodeFragment, pkt.netPkt_ne_nil]

theorem clear_toLp : (pkt.toLp.clear tlvFragment).elements = pkt.header := by
  have hall : pkt.header.filter (·.type != tlvFragment) = pkt.header :=
    List.filter_eq_self.mpr fun e he => by simpa using (pkt.header_type e he).1
  simp [clear, toLp, hall]

/-- A packet has all the header fields of `pkt`, except that its Sequence is its own. -/
def Carries (first : LpPacket) : Prop :=
  first.elements.filter otherField = pkt.header.filter (·.type != tlvSequence)

theorem carries_toLp : pkt.Carries pkt.toLp := by
  have hfragment : otherField ⟨tlvFragment, pkt.netPkt⟩ = false := rfl
  rw [Carries, toLp, List.filter_append, List.filter_cons_of_neg (by simp [hfragment]),
    List.filter_nil, List.append_nil]
  refine List.filter_congr fun e he => ?_
  have htype := pkt.header_type e he
  by_cases hseq : e.type = tlvSequence <;> simp [otherField, htype, hseq]

theorem contentSize_toLp : pkt.toLp.contentSize =
    firstHeaderSize pkt.toLp + Element.size ⟨tlvFragment, pkt.netPkt⟩ := by
  rw [firstHeaderSize, contentSize, contentSize, clear_toLp, toLp, List.map_append, List.sum_append]
  rfl

end NetPacket

/-! ## Sizes -/

theorem sizeOfVarNumber_le (n : ℕ) : sizeOfVarNumber n ≤ 9 := by
  unfold sizeOfVarNumber
  split_ifs <;> omega

theorem sizeOfNonNegativeInteger_le (n : ℕ) : sizeOfNonNegativeInteger n ≤ 8 := by
  unfold sizeOfNonNegativeInteger
  split_ifs <;> omega

theorem Element.size_mk (t : ℕ) (v : Bytes) :
    Element.size ⟨t, v⟩ = sizeOfVarNumber t + sizeOfVarNumber v.length + v.length := rfl

theorem size_nonNegativeInteger_le {t : ℕ} (ht : t < 253) (n : ℕ) :
    Element.size ⟨t, encodeNonNegativeInteger n⟩ ≤ 10 := by
  have hsize := sizeOfNonNegativeInteger_le n
  have hlength : (encodeNonNegativeInteger n).length ≤ 8 := by
    rwa [encodeNonNegativeInteger, length_toBytes]
  have htype : sizeOfVarNumber t = 1 := if_pos ht
  have hvalue : sizeOfVarNumber (encodeNonNegativeInteger n).length = 1 := if_pos (by omega)
  rw [Element.size_mk]
  omega

theorem size_fragment_le (payload : Bytes) :
    Element.size ⟨tlvFragment, payload⟩ ≤ 10 + payload.length := by
  have hlength := sizeOfVarNumber_le payload.length
  have htype : sizeOfVarNumber tlvFragment = 1 := rfl
  rw [Element.size_mk]
  omega

theorem wireSize_le {p : LpPacket} (h : p.elements.map Element.type ≠ [tlvFragment]) :
    ∃ w, p.wireSize = some w ∧ w ≤ 10 + p.contentSize := by
  have hlength := sizeOfVarNumber_le p.contentSize
  have htype : sizeOfVarNumber tlvLpPacket = 1 := rfl
  exact ⟨_, if_neg h, by omega⟩

theorem map_type_ne {p : LpPacket} {t : ℕ} (ht : t ≠ tlvFragment) (h : p.has t = true) :
    p.elements.map Element.type ≠ [tlvFragment] := by
  intro hmap
  obtain ⟨e, he, htype⟩ := List.any_eq_true.mp h
  have hmem : e.type ∈ p.elements.map Element.type := List.mem_map_of_mem he
  rw [hmap, List.mem_singleton] at hmem
  rw [beq_iff_eq] at htype
  exact ht (htype ▸ hmem)

theorem NetPacket.wireSize_toLp (pkt : NetPacket) : ∃ w, pkt.toLp.wireSize = some w ∧
    w ≤ 20 + firstHeaderSize pkt.toLp + pkt.netPkt.length := by
  by_cases hbare : pkt.toLp.elements.map Element.type = [tlvFragment]
  · -- only the Fragment: the network packet itself is sent
    obtain ⟨n, hn⟩ := Nat.exists_eq_succ_of_ne_zero
      (List.length_pos_iff.mpr pkt.netPkt_ne_nil).ne'
    have hparse : parse pkt.netPkt.length pkt.netPkt = some [pkt.netPkt] := by
      rw [hn, parse.eq_3 _ _ pkt.netPkt_ne_nil, pkt.isTlv]
      simp [parse]
    refine ⟨pkt.netPkt.length, ?_, by omega⟩
    rw [wireSize, if_pos hbare, pkt.value?_fragment, Option.bind_some, hparse]
    rfl
  · obtain ⟨w, hw, hle⟩ := wireSize_le hbare
    have hcontent := pkt.contentSize_toLp
    have hfragment := size_fragment_le pkt.netPkt
    exact ⟨w, hw, by omega⟩

/-! ## One fragment -/

/-- What the receiver reads from fragment `fragIndex` of `fragCount`. -/
structure IsFragment (fragCount fragIndex : ℕ) (payload : Bytes) (frag : LpPacket) : Prop where
  has_fragIndex : frag.has tlvFragIndex = true
  has_fragCount : frag.has tlvFragCount = true
  has_fragment : frag.has tlvFragment = true
  fragIndex : frag.getNonNegativeInteger tlvFragIndex = some fragIndex
  fragCount : frag.getNonNegativeInteger tlvFragCount = some fragCount
  fragment : frag.getFragment = some payload

/-- The packet that `populateFrag` makes when nothing goes wrong. -/
def filledFrag (fragCount : ℕ) (frag : LpPacket) (fragIndex : ℕ) (payload : Bytes) : LpPacket :=
  ((frag.insertField tlvFragIndex (encodeNonNegativeInteger fragIndex)).insertField tlvFragCount
    (encodeNonNegativeInteger fragCount)).set tlvFragment payload

section FilledFrag

variable {fragCount fragIndex mtu : ℕ} {frag : LpPacket} {payload : Bytes}

theorem value?_fragIndex_filledFrag (h : frag.has tlvFragIndex = false) :
    (filledFrag fragCount frag fragIndex payload).value? tlvFragIndex =
      some (encodeNonNegativeInteger fragIndex) := by
  rw [filledFrag, value?_set_of_ne (by decide), value?_insertField_of_ne (by decide),
    value?_insertField_self h]

theorem value?_fragCount_filledFrag (h : frag.has tlvFragCount = false) :
    (filledFrag fragCount frag fragIndex payload).value? tlvFragCount =
      some (encodeNonNegativeInteger fragCount) := by
  rw [filledFrag, value?_set_of_ne (by decide), value?_insertField_self]
  rwa [has_insertField_of_ne (by decide)]

theorem filledFrag_isFragment (hindex : frag.has tlvFragIndex = false)
    (hcount : frag.has tlvFragCount = false) (hlt : fragIndex < fragCount)
    (h64 : fragCount < 2 ^ 64) (hne : payload ≠ []) :
    IsFragment fragCount fragIndex payload (filledFrag fragCount frag fragIndex payload) where
  has_fragIndex := by rw [has_eq_isSome, value?_fragIndex_filledFrag hindex]; rfl
  has_fragCount := by rw [has_eq_isSome, value?_fragCount_filledFrag hcount]; rfl
  has_fragment := by rw [has_eq_isSome, filledFrag, value?_set_self]; rfl
  fragIndex := by
    rw [getNonNegativeInteger, value?_fragIndex_filledFrag hindex, Option.bind_some,
      decodeNonNegativeInteger_encode (hlt.trans h64)]
  fragCount := by
    rw [getNonNegativeInteger, value?_fragCount_filledFrag hcount, Option.bind_some,
      decodeNonNegativeInteger_encode h64]
  fragment := by simp [getFragment, filledFrag, value?_set_self, decodeFragment, hne]

theorem filter_otherField_filledFrag : (filledFrag fragCount frag fragIndex payload).elements.filter
    otherField = frag.elements.filter otherField := by
  rw [filledFrag, filter_set _ fun _ => rfl, filter_insertField _ rfl, filter_insertField _ rfl]

theorem wireSize_filledFrag (hcount : frag.has tlvFragCount = false)
    (hfit : maxFragOverhead + firstHeaderSize frag + payload.length ≤ mtu) :
    ∃ w, (filledFrag fragCount frag fragIndex payload).wireSize = some w ∧ w ≤ mtu := by
  have hhas : (filledFrag fragCount frag fragIndex payload).has tlvFragCount = true := by
    rw [has_eq_isSome, value?_fragCount_filledFrag hcount]; rfl
  obtain ⟨w, hw, hle⟩ := wireSize_le (map_type_ne (by decide) hhas)
  have hcontent : (filledFrag fragCount frag fragIndex payload).contentSize =
      Element.size ⟨tlvFragment, payload⟩ +
        (Element.size ⟨tlvFragCount, encodeNonNegativeInteger fragCount⟩ +
          (Element.size ⟨tlvFragIndex, encodeNonNegativeInteger fragIndex⟩ +
            firstHeaderSize frag)) := by
    rw [filledFrag, contentSize_set, contentSize_clear_insertField (by decide),
      contentSize_clear_insertField (by decide), firstHeaderSize]
  have hindexSize := size_nonNegativeInteger_le (t := tlvFragIndex) (by decide) fragIndex
  have hcountSize := size_nonNegativeInteger_le (t := tlvFragCount) (by decide) fragCount
  have hfragmentSize := size_fragment_le payload
  refine ⟨w, hw, ?_⟩
  unfold maxFragOverhead at hfit
  omega

theorem populateFrag_eq (hindex : frag.has tlvFragIndex = false)
    (hcount : frag.has tlvFragCount = false)
    (hfit : maxFragOverhead + firstHeaderSize frag + payload.length ≤ mtu) :
    populateFrag fragCount mtu frag fragIndex payload =
      some (filledFrag fragCount frag fragIndex payload) := by
  obtain ⟨w, hw, hle⟩ : ∃ w, (filledFrag fragCount frag fragIndex payload).wireSize = some w ∧
    w ≤ mtu := wireSize_filledFrag hcount hfit
  have hadd : frag.add tlvFragIndex (encodeNonNegativeInteger fragIndex) =
      some (frag.insertField tlvFragIndex (encodeNonNegativeInteger fragIndex)) := by
    simp [add, hindex]
  have hadd' : (frag.insertField tlvFragIndex (encodeNonNegativeInteger fragIndex)).add tlvFragCount
      (encodeNonNegativeInteger fragCount) = some ((frag.insertField tlvFragIndex
        (encodeNonNegativeInteger fragIndex)).insertField tlvFragCount
        (encodeNonNegativeInteger fragCount)) := by
    simp [add, has_insertField_of_ne (show tlvFragIndex ≠ tlvFragCount by decide), hcount]
  simp only [populateFrag, hadd, hadd', Option.bind_eq_bind, Option.bind_some]
  change Option.bind (filledFrag fragCount frag fragIndex payload).wireSize _ = _
  rw [hw, Option.bind_some, if_pos hle]
  rfl

end FilledFrag

/-! ## The loop -/

structure Cut (fragCount mtu fragIndex : ℕ) (bytes : Bytes) (frags : List LpPacket) : Prop where
  payloads : ∃ payloads : List Bytes, payloads.flatten = bytes ∧ payloads.length = frags.length ∧
    ∀ i < frags.length, IsFragment fragCount (fragIndex + i) (payloads.getD i []) (frags.getD i {})
  fit : ∀ frag ∈ frags, ∃ w, frag.wireSize = some w ∧ w ≤ mtu

section Populate

variable {fragCount mtu payloadSize fragIndex : ℕ} {frag : LpPacket}

theorem Cut.nil : Cut fragCount mtu fragIndex [] [] where
  payloads := ⟨[], rfl, rfl, fun _ h => absurd h (Nat.not_lt_zero _)⟩
  fit := fun _ h => absurd h List.not_mem_nil

theorem Cut.cons {payload bytes : Bytes} {frags : List LpPacket}
    (hfrag : IsFragment fragCount fragIndex payload frag)
    (hfit : ∃ w, frag.wireSize = some w ∧ w ≤ mtu)
    (h : Cut fragCount mtu (fragIndex + 1) bytes frags) :
    Cut fragCount mtu fragIndex (payload ++ bytes) (frag :: frags) where
  payloads := by
    obtain ⟨payloads, hflat, hlength, hisFrag⟩ := h.payloads
    refine ⟨payload :: payloads, ?_, ?_, ?_⟩
    · rw [List.flatten_cons, hflat]
    · rw [List.length_cons, List.length_cons, hlength]
    · intro i hi
      cases i with
      | zero => exact hfrag
      | succ i =>
        rw [Nat.add_comm i 1, ← Nat.add_assoc, Nat.add_comm 1 i]
        exact hisFrag i (by simpa using hi)
  fit := List.forall_mem_cons.mpr ⟨hfit, h.fit⟩

theorem populate_cons (frags : List LpPacket) (rest : Bytes) (size : ℕ)
    (hindex : frag.has tlvFragIndex = false) (hcount : frag.has tlvFragCount = false)
    (hlt : fragIndex < fragCount) (h64 : fragCount < 2 ^ 64) (hpos : 0 < size)
    (hle : size ≤ rest.length) (hfit : maxFragOverhead + firstHeaderSize frag + size ≤ mtu)
    (ih : ∃ out, populate fragCount mtu payloadSize frags (fragIndex + 1) (rest.drop size)
      (min payloadSize (rest.drop size).length) = some out ∧ out.length = frags.length ∧
      Cut fragCount mtu (fragIndex + 1) (rest.drop size) out) :
    ∃ out, populate fragCount mtu payloadSize (frag :: frags) fragIndex rest size = some out ∧
      out.length = frags.length + 1 ∧ Cut fragCount mtu fragIndex rest out ∧
      (out.getD 0 {}).elements.filter otherField = frag.elements.filter otherField := by
  obtain ⟨out, hpop, hlength, hcut⟩ := ih
  have htake : (rest.take size).length = size := List.length_take_of_le hle
  have hrest : rest ≠ [] := List.length_pos_iff.mp (by omega)
  have hpayload : rest.take size ≠ [] := List.length_pos_iff.mp (by omega)
  rw [← htake] at hfit
  refine ⟨filledFrag fragCount frag fragIndex (rest.take size) :: out, ?_, ?_, ?_,
    filter_otherField_filledFrag⟩
  · rw [populate, if_neg hrest, populateFrag_eq hindex hcount hfit, hpop]
    rfl
  · rw [List.length_cons, hlength]
  · have hcons := Cut.cons (filledFrag_isFragment hindex hcount hlt h64 hpayload)
      (wireSize_filledFrag hcount hfit) hcut
    rwa [List.take_append_drop] at hcons

/-- The fragments after the first: `k` empty packets take what is left of the network packet when
`k` is the ceiling of its length over `payloadSize`. -/
theorem populate_replicate (hp : 0 < payloadSize) (hmtu : maxFragOverhead + payloadSize ≤ mtu)
    (h64 : fragCount < 2 ^ 64) (k fragIndex : ℕ) (rest : Bytes) (hindex : fragIndex + k = fragCount)
    (hle : rest.length ≤ k * payloadSize) (hlt : k * payloadSize < rest.length + payloadSize) :
    ∃ out, populate fragCount mtu payloadSize (List.replicate k {}) fragIndex rest
        (min payloadSize rest.length) = some out ∧ out.length = (List.replicate k ({} : LpPacket)).length ∧
      Cut fragCount mtu fragIndex rest out := by
  induction k generalizing fragIndex rest with
  | zero =>
    obtain rfl : rest = [] := List.eq_nil_of_length_eq_zero (by omega)
    exact ⟨[], if_pos ⟨rfl, hindex⟩, rfl, Cut.nil⟩
  | succ k ih =>
    rw [Nat.succ_mul] at hle hlt
    have hblank : firstHeaderSize {} = 0 := rfl
    have hdrop : (rest.drop (min payloadSize rest.length)).length =
      rest.length - min payloadSize rest.length := List.length_drop
    have hk : k = 0 ∨ payloadSize ≤ k * payloadSize :=
      k.eq_zero_or_pos.imp id (Nat.le_mul_of_pos_left payloadSize)
    have hzero : k = 0 → k * payloadSize = 0 := fun h => by rw [h, Nat.zero_mul]
    obtain ⟨out, hpop, hlength, hcut, -⟩ := populate_cons (List.replicate k {}) rest
      (min payloadSize rest.length) (show has {} tlvFragIndex = false from rfl) rfl (by omega) h64
      (by omega) (by omega) (by omega) (ih (fragIndex + 1) _ (by omega) (by omega) (by omega))
    exact ⟨out, hpop, hlength, hcut⟩

end Populate

/-! ## Fragmentation -/

def Fragmented (nMaxFragments : UInt64) (pkt : NetPacket) (mtu : ℕ) (frags : List LpPacket) : Prop :=
  frags = [pkt.toLp] ∧ (∃ w, pkt.toLp.wireSize = some w ∧ w ≤ mtu) ∨
    2 ≤ frags.length ∧ frags.length ≤ nMaxFragments.toNat ∧ Cut frags.length mtu 0 pkt.netPkt frags ∧
      pkt.Carries (frags.getD 0 {})

/-- After the first fragment come as many as the ceiling of the other bytes over `payloadSize`. -/
theorem countFrags_spec (netPktSize firstPayloadSize : ℕ) {payloadSize : ℕ} (hp : 0 < payloadSize) :
    ∃ k, countFrags netPktSize firstPayloadSize payloadSize = k + 1 ∧
      netPktSize - firstPayloadSize ≤ k * payloadSize ∧
      k * payloadSize < netPktSize - firstPayloadSize + payloadSize := by
  have hdiv := Nat.div_add_mod' (netPktSize - firstPayloadSize) payloadSize
  have hmod := Nat.mod_lt (netPktSize - firstPayloadSize) hp
  refine ⟨(netPktSize - firstPayloadSize) / payloadSize +
    if (netPktSize - firstPayloadSize) % payloadSize ≠ 0 then 1 else 0, ?_, ?_⟩
  · rw [countFrags]
    omega
  · rw [Nat.add_mul]
    split_ifs <;> omega

theorem populate_spec {nMaxFragments : UInt64} {pkt : NetPacket} {mtu k : ℕ}
    (hlong : mtu < maxFragOverhead + firstHeaderSize pkt.toLp + pkt.netPkt.length)
    (hroom : maxFragOverhead + firstHeaderSize pkt.toLp + 1 ≤ mtu)
    (hmax : k + 1 ≤ nMaxFragments.toNat)
    (hle : pkt.netPkt.length - (mtu - firstHeaderSize pkt.toLp - maxFragOverhead) ≤
      k * (mtu - maxFragOverhead))
    (hlt : k * (mtu - maxFragOverhead) < pkt.netPkt.length -
      (mtu - firstHeaderSize pkt.toLp - maxFragOverhead) + (mtu - maxFragOverhead)) :
    ∃ frags, populate (k + 1) mtu (mtu - maxFragOverhead) (pkt.toLp :: List.replicate k {}) 0
        pkt.netPkt (mtu - firstHeaderSize pkt.toLp - maxFragOverhead) = some frags ∧
      Fragmented nMaxFragments pkt mtu frags := by
  set size := mtu - firstHeaderSize pkt.toLp - maxFragOverhead with hsize
  have h64 : k + 1 < 2 ^ 64 := lt_of_le_of_lt hmax nMaxFragments.toNat_lt
  have hk : 0 < k := by
    rcases k.eq_zero_or_pos with rfl | hk
    · omega
    · exact hk
  have hdrop : (pkt.netPkt.drop size).length = pkt.netPkt.length - size := List.length_drop
  have hmtu : maxFragOverhead + (mtu - maxFragOverhead) ≤ mtu := by omega
  obtain ⟨frags, hpop, hlength, hcut, hother⟩ := populate_cons (List.replicate k {}) pkt.netPkt
    size pkt.has_fragIndex pkt.has_fragCount (Nat.succ_pos k) h64 (by omega) (by omega) (by omega)
    (populate_replicate (by omega) hmtu h64 k 1 (pkt.netPkt.drop size)
      (by omega) (by omega) (by omega))
  rw [List.length_replicate] at hlength
  refine ⟨frags, hpop, .inr ⟨by omega, by omega, hlength ▸ hcut, ?_⟩⟩
  exact hother.trans pkt.carries_toLp

/-- **Fragmentation.** No assertion fails, and what is returned is one packet or a cut of it. -/
theorem fragmentPacket_spec (nMaxFragments : UInt64) (pkt : NetPacket) (mtu : ℕ) :
    ∃ r, fragmentPacket nMaxFragments pkt.toLp mtu = some r ∧
      ∀ frags, r = some frags → Fragmented nMaxFragments pkt mtu frags := by
  obtain ⟨w, hw, hle⟩ := pkt.wireSize_toLp
  rw [fragmentPacket, if_pos ⟨pkt.has_fragment, by simp [pkt.has_fragIndex],
    by simp [pkt.has_fragCount]⟩, hw, pkt.getFragment_toLp]
  simp only [Option.bind_eq_bind, Option.bind_some]
  split_ifs with hfast hsmall hover
  · refine ⟨_, rfl, ?_⟩
    rintro frags ⟨⟩
    exact .inl ⟨rfl, w, hw, by omega⟩
  · exact ⟨none, rfl, by simp⟩
  · exact ⟨none, rfl, by simp⟩
  · unfold maxSingleFragOverhead at hfast
    have hoverhead : maxFragOverhead = 50 := rfl
    have hmin : min pkt.netPkt.length (mtu - firstHeaderSize pkt.toLp - maxFragOverhead) =
        mtu - firstHeaderSize pkt.toLp - maxFragOverhead := by omega
    rw [hmin] at hover ⊢
    obtain ⟨k, hcount, hge, hlt⟩ := countFrags_spec pkt.netPkt.length
      (mtu - firstHeaderSize pkt.toLp - maxFragOverhead) (show 0 < mtu - maxFragOverhead by omega)
    rw [hcount] at hover ⊢
    have hmax : k + 1 ≤ nMaxFragments.toNat := by omega
    obtain ⟨frags, hpop, hfrags⟩ := populate_spec (by omega) (by omega) hmax hge hlt
    refine ⟨some frags, ?_, ?_⟩
    · rw [Nat.add_sub_cancel, hpop]
      rfl
    · rintro _ ⟨⟩
      exact hfrags

theorem assignSequences_getD (lastSeqNo : ℕ) (pkts : List LpPacket) {i : ℕ} (hi : i < pkts.length) :
    (assignSequences lastSeqNo pkts).1.getD i {} =
      (pkts.getD i {}).set tlvSequence (encodeSequence ((lastSeqNo + 1 + i) % 2 ^ 64)) := by
  induction pkts generalizing lastSeqNo i with
  | nil => simp at hi
  | cons pkt pkts ih =>
    cases i with
    | zero => rfl
    | succ i =>
      have hseq : ((lastSeqNo + 1) % 2 ^ 64 + 1 + i) % 2 ^ 64 = (lastSeqNo + 1 + (i + 1)) % 2 ^ 64 := by
        omega
      rw [← hseq]
      exact ih _ (by simpa using hi)

end Ns3Ndn
