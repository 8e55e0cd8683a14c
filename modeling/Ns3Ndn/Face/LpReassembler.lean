import Ns3Ndn.Face.LpFragmenter
import Ns3Ndn.Lib.Collect

/-!
# Reassembly

`NFD/daemon/face/lp-reassembler.cpp`: fragments are collected under the endpoint they came from and
the Sequence of the first fragment of their message, until all of them are there.

* `received_eq`: fragments in any order, repeated, and between anything else complete their message
  each time all of them have arrived;
* `fragmentPacket_reassembles`: fragmentation and reassembly together.
-/

namespace Ns3Ndn

open Tlv LpPacket CollectLib

/-- The fragments of a message that is not complete. -/
structure PartialPacket where
  fragments : List LpPacket := []
  fragCount : ℕ := 0
  nReceivedFragments : ℕ := 0
deriving DecidableEq

/-- `m_partialPackets`, by remote endpoint and message identifier. -/
abbrev LpReassembler (E : Type) := E × ℕ → Option PartialPacket

/-- What a call of `receiveFragment` comes to. `error` is the exception of a malformed packet;
`fault` is a failed assertion or a write past the end of the buffer. -/
inductive Reception where
  | dropped
  | complete (netPkt : Bytes) (firstFrag : LpPacket)
  | error
  | fault
deriving DecidableEq

/-- `doReassembly`. The size of the buffer is summed up in 32 bits. -/
def doReassembly (pp : PartialPacket) : Except Reception Bytes :=
  match pp.fragments.mapM getFragment with
  | none => .error .error
  | some payloads =>
    if 2 ^ 32 ≤ payloads.flatten.length then .error .fault
    else
      match firstTlv payloads.flatten with
      | none => .error .error
      | some netPkt => .ok netPkt

/-- FragIndex with its default. -/
def LpPacket.fragIndex (packet : LpPacket) : Option ℕ :=
  if packet.has tlvFragIndex then packet.getNonNegativeInteger tlvFragIndex else some 0

/-- FragCount with its default. -/
def LpPacket.fragCount (packet : LpPacket) : Option ℕ :=
  if packet.has tlvFragCount then packet.getNonNegativeInteger tlvFragCount else some 1

namespace LpReassembler

variable {E : Type} [DecidableEq E]

def collect (m : LpReassembler E) (key : E × ℕ) (fragIndex fragCount : ℕ) (packet : LpPacket) :
    Reception × LpReassembler E :=
  let pp := (m key).getD {}
  if pp.fragCount ≠ 0 ∧ fragCount ≠ pp.fragCount then (.dropped, m)
  else
    let pp : PartialPacket :=
      if pp.fragCount = 0 then ⟨List.replicate fragCount {}, fragCount, 0⟩ else pp
    if (pp.fragments.getD fragIndex {}).has tlvSequence then
      (.dropped, Function.update m key (some pp))
    else
      let pp : PartialPacket :=
        ⟨pp.fragments.set fragIndex packet, pp.fragCount, pp.nReceivedFragments + 1⟩
      if pp.nReceivedFragments = pp.fragCount then
        match doReassembly pp with
        | .ok netPkt => (.complete netPkt (pp.fragments.getD 0 {}), Function.update m key none)
        | .error r => (r, Function.update m key (some pp))
      else (.dropped, Function.update m key (some pp))

def messageIdentifier (sequence fragIndex : ℕ) : ℕ := (sequence + 2 ^ 64 - fragIndex) % 2 ^ 64

/-- `LpReassembler::receiveFragment`. -/
def receiveFragment (nMaxFragments : UInt64) (m : LpReassembler E) (remoteEndpoint : E)
    (packet : LpPacket) : Reception × LpReassembler E :=
  if ¬ packet.has tlvFragment then (.fault, m)
  else
    match packet.fragIndex, packet.fragCount with
    | some fragIndex, some fragCount =>
      if fragIndex ≥ fragCount then (.dropped, m)
      else if fragCount > nMaxFragments.toNat then (.dropped, m)
      else if fragIndex = 0 ∧ fragCount = 1 then
        match packet.getFragment.bind firstTlv with
        | none => (.error, m)
        | some netPkt => (.complete netPkt packet, m)
      else if ¬ packet.has tlvSequence then (.dropped, m)
      else
        match packet.getSequence tlvSequence with
        | none => (.error, m)
        | some sequence =>
          m.collect (remoteEndpoint, messageIdentifier sequence fragIndex) fragIndex fragCount packet
    | _, _ => (.error, m)

def timeoutPartialPacket (m : LpReassembler E) (key : E × ℕ) : LpReassembler E :=
  Function.update m key none

end LpReassembler

/-- What happens to a reassembler while fragments of one message, from one endpoint, come in. -/
inductive Arrival (E : Type) where
  | fragment (fragIndex : ℕ)
  | other (endpoint : E) (packet : LpPacket)
  | timeout (key : E × ℕ)

def Arrival.fragments {E : Type} : List (Arrival E) → List ℕ
  | [] => []
  | .fragment fragIndex :: arrivals => fragIndex :: fragments arrivals
  | _ :: arrivals => fragments arrivals

namespace LpReassembler

variable {E : Type} [DecidableEq E]

def received (nMaxFragments : UInt64) (endpoint : E) (frags : List LpPacket) :
    LpReassembler E → List (Arrival E) → List Reception
  | _, [] => []
  | m, .fragment fragIndex :: arrivals =>
    let (r, m) := m.receiveFragment nMaxFragments endpoint (frags.getD fragIndex {})
    r :: received nMaxFragments endpoint frags m arrivals
  | m, .other endpoint' packet :: arrivals =>
    received nMaxFragments endpoint frags (m.receiveFragment nMaxFragments endpoint' packet).2 arrivals
  | m, .timeout key :: arrivals =>
    received nMaxFragments endpoint frags (m.timeoutPartialPacket key) arrivals

end LpReassembler

namespace LpReassembler

variable {E : Type} [DecidableEq E] {m : LpReassembler E} {key : E × ℕ}

theorem collect_of_ne {key' : E × ℕ} (h : key ≠ key') (fragIndex fragCount : ℕ) (packet : LpPacket) :
    (m.collect key' fragIndex fragCount packet).2 key = m key := by
  unfold collect
  dsimp only
  split_ifs <;> try split
  all_goals simp [Function.update_of_ne h]

/-- An arrival that has nothing to do with the message kept under `key`: a packet from another
endpoint or of a message that begins at another Sequence, or the drop timer of another message. A
message with a disjoint range of Sequence numbers begins at another one. -/
def Foreign (key : E × ℕ) : Arrival E → Prop
  | .fragment _ => True
  | .other endpoint packet => endpoint = key.1 → ∀ fragIndex ∈ packet.fragIndex,
      ∀ sequence ∈ packet.getSequence tlvSequence, messageIdentifier sequence fragIndex ≠ key.2
  | .timeout key' => key' ≠ key

theorem receiveFragment_of_foreign {nMaxFragments : UInt64} {endpoint : E} {packet : LpPacket}
    (h : Foreign key (.other endpoint packet)) :
    (m.receiveFragment nMaxFragments endpoint packet).2 key = m key := by
  unfold receiveFragment
  by_cases hfragment : packet.has tlvFragment
  · rw [if_neg (not_not.mpr hfragment)]
    split
    case h_2 => rfl
    case h_1 fragIndex fragCount hindex _ =>
      split_ifs
      · rfl
      · rfl
      · split <;> rfl
      · split
        case h_1 => rfl
        case h_2 sequence hseq =>
          refine collect_of_ne ?_ _ _ _
          rintro rfl
          exact h rfl fragIndex hindex sequence hseq rfl
      · rfl
  · rw [if_pos hfragment]

/-! ## Fragments of one message -/

/-- The packets of a message of at least two fragments, as they come from the sender: `payloads` are
what they carry, and they all give the message identifier `first`. -/
structure Message (nMaxFragments : UInt64) (first : ℕ) (netPkt : Bytes) (payloads : List Bytes)
    (frags : List LpPacket) : Prop where
  two_le : 2 ≤ frags.length
  le_max : frags.length ≤ nMaxFragments.toNat
  flatten : payloads.flatten = netPkt
  length_payloads : payloads.length = frags.length
  isFragment : ∀ i < frags.length,
    IsFragment frags.length i (payloads.getD i []) (frags.getD i {})
  has_sequence : ∀ i < frags.length, (frags.getD i {}).has tlvSequence = true
  sequence : ∀ i < frags.length, ∃ sequence ∈ (frags.getD i {}).getSequence tlvSequence,
    messageIdentifier sequence i = first
  isTlv : firstTlv netPkt = some netPkt
  length_lt : netPkt.length < 2 ^ 32

def partialOf (frags : List LpPacket) (got : Finset ℕ) : PartialPacket where
  fragments := (List.range frags.length).map fun i => if i ∈ got then frags.getD i {} else {}
  fragCount := frags.length
  nReceivedFragments := got.card

structure Collected (key : E × ℕ) (frags : List LpPacket) (got : Finset ℕ) (m : LpReassembler E) :
    Prop where
  lt : ∀ i ∈ got, i < frags.length
  card_lt : got.card < frags.length
  entry : m key = if got = ∅ then none else some (partialOf frags got)

variable {nMaxFragments : UInt64} {first : ℕ} {netPkt : Bytes} {payloads : List Bytes}
  {frags : List LpPacket} {got : Finset ℕ} {i : ℕ}

theorem partialOf_empty : partialOf frags ∅ = ⟨List.replicate frags.length {}, frags.length, 0⟩ := by
  simp [partialOf, List.map_const']

theorem getD_partialOf (hi : i < frags.length) :
    (partialOf frags got).fragments.getD i {} = if i ∈ got then frags.getD i {} else {} := by
  simp [partialOf, List.getD_eq_getElem?_getD, hi]

theorem partialOf_insert (hi : i ∉ got) :
    partialOf frags (insert i got) = ⟨(partialOf frags got).fragments.set i (frags.getD i {}),
      frags.length, got.card + 1⟩ := by
  rw [partialOf, Finset.card_insert_of_notMem hi]
  congr 1
  refine List.ext_getElem (by simp [partialOf]) fun j hj _ => ?_
  simp only [partialOf, List.getElem_map, List.getElem_range, List.getElem_set,
    Finset.mem_insert]
  by_cases hij : j = i
  · simp [hij]
  · simp [hij, Ne.symm hij]

/-- All fragments are there. -/
theorem partialOf_full (hlt : ∀ i ∈ got, i < frags.length) (hcard : got.card = frags.length) :
    (partialOf frags got).fragments = frags := by
  have hgot : got = Finset.range frags.length := by
    refine Finset.eq_of_subset_of_card_le (fun i hi => Finset.mem_range.mpr (hlt i hi)) ?_
    rw [Finset.card_range, hcard]
  refine List.ext_getElem (by simp [partialOf]) fun j _ hj => ?_
  simp [partialOf, hgot, hj]

theorem mapM_eq_some_of_forall₂ {α β : Type} {f : α → Option β} {l : List α} {l' : List β}
    (h : List.Forall₂ (fun a b => f a = some b) l l') : l.mapM f = some l' := by
  induction h with
  | nil => rfl
  | cons hab _ ih => simp [hab, ih]

theorem Message.mapM_getFragment (h : Message nMaxFragments first netPkt payloads frags) :
    frags.mapM getFragment = some payloads := by
  refine mapM_eq_some_of_forall₂ (List.forall₂_iff_get.mpr ⟨h.length_payloads.symm, fun i hi hi' => ?_⟩)
  have := (h.isFragment i hi).fragment
  simpa [List.getD_eq_getElem?_getD, hi, hi'] using this

theorem Message.doReassembly (h : Message nMaxFragments first netPkt payloads frags)
    (hlt : ∀ i ∈ got, i < frags.length) (hcard : got.card = frags.length) :
    doReassembly (partialOf frags got) = .ok netPkt := by
  have hlength := h.length_lt
  rw [Ns3Ndn.doReassembly, partialOf_full hlt hcard, h.mapM_getFragment]
  dsimp only
  rw [h.flatten, if_neg (by omega), h.isTlv]

theorem Collected.collect_eq {key : E × ℕ} (hm : Collected key frags got m) (packet : LpPacket)
    (hpos : frags.length ≠ 0) :
    m.collect key i frags.length packet =
      if ((partialOf frags got).fragments.getD i {}).has tlvSequence then
        (.dropped, Function.update m key (some (partialOf frags got)))
      else
        let pp : PartialPacket :=
          ⟨(partialOf frags got).fragments.set i packet, frags.length, got.card + 1⟩
        if got.card + 1 = frags.length then
          match Ns3Ndn.doReassembly pp with
          | .ok netPkt => (.complete netPkt (pp.fragments.getD 0 {}), Function.update m key none)
          | .error r => (r, Function.update m key (some pp))
        else (.dropped, Function.update m key (some pp)) := by
  by_cases hgot : got = ∅
  · have hentry : m key = none := by rw [hm.entry, if_pos hgot]
    rw [collect, hentry, hgot, partialOf_empty]
    rfl
  · have hentry : m key = some (partialOf frags got) := by rw [hm.entry, if_neg hgot]
    have hcount : (partialOf frags got).fragCount = frags.length := rfl
    rw [collect, hentry]
    simp only [Option.getD_some, hcount, hpos, ne_eq, not_true_eq_false, and_false, if_false]
    rfl

/-- What the arrival of fragment `i` returns. -/
def receptionOf (netPkt : Bytes) (firstFrag : LpPacket) (isComplete : Bool) : Reception :=
  if isComplete then .complete netPkt firstFrag else .dropped

/-- The fragments kept after the arrival of fragment `i`. -/
def gotAfter (fragCount : ℕ) (got : Finset ℕ) (i : ℕ) : Finset ℕ :=
  if (insert i got).card = fragCount then ∅ else insert i got

/-- **One fragment.** It is dropped, unless it is the last that was missing. -/
theorem Collected.collect {key : E × ℕ} (h : Message nMaxFragments first netPkt payloads frags)
    (hm : Collected key frags got m) (hi : i < frags.length) :
    (m.collect key i frags.length (frags.getD i {})).1 =
        receptionOf netPkt (frags.getD 0 {}) ((insert i got).card = frags.length) ∧
      Collected key frags (gotAfter frags.length got i)
        (m.collect key i frags.length (frags.getD i {})).2 := by
  have hpos : frags.length ≠ 0 := by have := h.two_le; omega
  have hlt : ∀ j ∈ insert i got, j < frags.length := Finset.forall_mem_insert .. |>.mpr ⟨hi, hm.lt⟩
  rw [hm.collect_eq _ hpos, getD_partialOf hi]
  by_cases hmem : i ∈ got
  · -- a repeated fragment
    have hcard := hm.card_lt
    have hne : got ≠ ∅ := Finset.ne_empty_of_mem hmem
    rw [if_pos hmem, if_pos (h.has_sequence i hi), gotAfter, Finset.insert_eq_of_mem hmem,
      if_neg hcard.ne]
    exact ⟨by simp [receptionOf, hcard.ne], hm.lt, hcard, by simp [hne]⟩
  · have hcard := Finset.card_insert_of_notMem hmem
    have hblank : LpPacket.has {} tlvSequence = false := rfl
    rw [if_neg hmem, hblank, if_neg Bool.false_ne_true, ← partialOf_insert hmem, gotAfter]
    dsimp only
    split_ifs with hfull hfull' hfull'
    · -- the last one
      rw [h.doReassembly hlt (hcard.trans hfull), partialOf_full hlt (hcard.trans hfull)]
      refine ⟨by simp [receptionOf, hcard, hfull], ?_, ?_, ?_⟩
      · simp
      · simpa using Nat.pos_of_ne_zero hpos
      · simp
    · omega
    · omega
    · refine ⟨by simp [receptionOf, hfull'], hlt, ?_, ?_⟩
      · have := hm.card_lt
        omega
      · simp [Finset.insert_ne_empty]

theorem Message.receiveFragment_eq (h : Message nMaxFragments first netPkt payloads frags)
    (endpoint : E) (hi : i < frags.length) :
    m.receiveFragment nMaxFragments endpoint (frags.getD i {}) =
      m.collect (endpoint, first) i frags.length (frags.getD i {}) := by
  have hfrag := h.isFragment i hi
  have hcount := h.two_le
  have hmax := h.le_max
  obtain ⟨sequence, hseq, rfl⟩ := h.sequence i hi
  have hindex : (frags.getD i {}).fragIndex = some i := by
    rw [LpPacket.fragIndex, if_pos hfrag.has_fragIndex, hfrag.fragIndex]
  have hfragCount : (frags.getD i {}).fragCount = some frags.length := by
    rw [LpPacket.fragCount, if_pos hfrag.has_fragCount, hfrag.fragCount]
  rw [receiveFragment, if_neg (not_not.mpr hfrag.has_fragment), hindex, hfragCount]
  dsimp only
  rw [if_neg (by omega), if_neg (by omega), if_neg (by omega),
    if_neg (not_not.mpr (h.has_sequence i hi)), Option.mem_def.mp hseq]

def Reassembles (nMaxFragments : UInt64) (key : E × ℕ) (netPkt : Bytes) (frags : List LpPacket) :
    Prop :=
  ∀ (m : LpReassembler E) (got : Finset ℕ) (i : ℕ), Collected key frags got m → i < frags.length →
    (m.receiveFragment nMaxFragments key.1 (frags.getD i {})).1 =
        receptionOf netPkt (frags.getD 0 {}) ((insert i got).card = frags.length) ∧
      Collected key frags (gotAfter frags.length got i)
        (m.receiveFragment nMaxFragments key.1 (frags.getD i {})).2

theorem Message.reassembles (h : Message nMaxFragments first netPkt payloads frags) (endpoint : E) :
    Reassembles nMaxFragments (endpoint, first) netPkt frags := by
  intro m got i hm hi
  rw [h.receiveFragment_eq endpoint hi]
  exact hm.collect h hi

theorem reassembles_single {packet : LpPacket} (hmax : 1 ≤ nMaxFragments.toNat)
    (hindex : packet.has tlvFragIndex = false) (hcount : packet.has tlvFragCount = false)
    (hfragment : packet.has tlvFragment = true) (hpayload : packet.getFragment = some netPkt)
    (htlv : firstTlv netPkt = some netPkt) (key : E × ℕ) :
    Reassembles nMaxFragments key netPkt [packet] := by
  intro m got i hm hi
  obtain rfl : i = 0 := by simpa using hi
  obtain rfl : got = ∅ := by simpa using hm.card_lt
  have hreceive : m.receiveFragment nMaxFragments key.1 packet = (.complete netPkt packet, m) := by
    rw [receiveFragment, if_neg (by simp [hfragment]), LpPacket.fragIndex, LpPacket.fragCount,
      if_neg (by simp [hindex]), if_neg (by simp [hcount])]
    dsimp only
    rw [if_neg (by omega), if_neg (by omega), if_pos ⟨rfl, rfl⟩, hpayload, Option.bind_some, htlv]
  show (m.receiveFragment nMaxFragments key.1 packet).1 = _ ∧ _
  rw [List.getD_cons_zero, hreceive]
  exact ⟨rfl, hm⟩

/-- **A run of arrivals.** By induction on the arrivals, with the fragments kept so far. -/
theorem received_eq {key : E × ℕ} (h : Reassembles nMaxFragments key netPkt frags)
    (arrivals : List (Arrival E)) (hm : Collected key frags got m)
    (hforeign : ∀ a ∈ arrivals, Foreign key a)
    (hlt : ∀ i ∈ Arrival.fragments arrivals, i < frags.length) :
    received nMaxFragments key.1 frags m arrivals =
      (completions frags.length got (Arrival.fragments arrivals)).map
        (receptionOf netPkt (frags.getD 0 {})) := by
  induction arrivals generalizing m got with
  | nil => rfl
  | cons a arrivals ih =>
    obtain ⟨ha, harrivals⟩ := List.forall_mem_cons.mp hforeign
    cases a with
    | fragment i =>
      obtain ⟨hi, hlt⟩ := List.forall_mem_cons.mp hlt
      obtain ⟨hr, hnext⟩ := h m got i hm hi
      rw [received, Arrival.fragments, completions]
      dsimp only
      rw [hr, ih hnext harrivals hlt, gotAfter]
      split_ifs with hfull <;> simp [hfull]
    | other endpoint packet =>
      refine ih ⟨hm.lt, hm.card_lt, ?_⟩ harrivals hlt
      rw [receiveFragment_of_foreign ha, hm.entry]
    | timeout key' =>
      refine ih ⟨hm.lt, hm.card_lt, ?_⟩ harrivals hlt
      rw [timeoutPartialPacket, Function.update_of_ne (Ne.symm ha), hm.entry]

end LpReassembler

/-! ## Fragmentation and reassembly -/

section RoundTrip

variable {nMaxFragments nMaxFragments' : UInt64} {pkt : NetPacket} {mtu : ℕ} {frags : List LpPacket}

theorem IsFragment.set_sequence {fragCount i : ℕ} {payload v : Bytes} {frag : LpPacket}
    (h : IsFragment fragCount i payload frag) :
    IsFragment fragCount i payload (frag.set tlvSequence v) where
  has_fragIndex := by
    rw [has_eq_isSome, value?_set_of_ne (by decide), ← has_eq_isSome, h.has_fragIndex]
  has_fragCount := by
    rw [has_eq_isSome, value?_set_of_ne (by decide), ← has_eq_isSome, h.has_fragCount]
  has_fragment := by
    rw [has_eq_isSome, value?_set_of_ne (by decide), ← has_eq_isSome, h.has_fragment]
  fragIndex := by
    rw [← h.fragIndex, getNonNegativeInteger, getNonNegativeInteger, value?_set_of_ne (by decide)]
  fragCount := by
    rw [← h.fragCount, getNonNegativeInteger, getNonNegativeInteger, value?_set_of_ne (by decide)]
  fragment := by rw [← h.fragment, getFragment, getFragment, value?_set_of_ne (by decide)]

theorem length_assignSequences (lastSeqNo : ℕ) (pkts : List LpPacket) :
    (assignSequences lastSeqNo pkts).1.length = pkts.length := by
  induction pkts generalizing lastSeqNo with
  | nil => rfl
  | cons pkt pkts ih => rw [assignSequences, List.length_cons, List.length_cons, ih]

theorem messageIdentifier_sequence (lastSeqNo : ℕ) {i : ℕ} (hi : i < 2 ^ 64) :
    LpReassembler.messageIdentifier ((lastSeqNo + 1 + i) % 2 ^ 64) i = (lastSeqNo + 1) % 2 ^ 64 := by
  unfold LpReassembler.messageIdentifier
  omega

theorem Cut.message (h : Cut frags.length mtu 0 pkt.netPkt frags) (htwo : 2 ≤ frags.length)
    (hmax : frags.length ≤ nMaxFragments'.toNat) (hlength : pkt.netPkt.length < 2 ^ 32)
    (lastSeqNo : ℕ) : ∃ payloads, LpReassembler.Message nMaxFragments' ((lastSeqNo + 1) % 2 ^ 64)
      pkt.netPkt payloads (assignSequences lastSeqNo frags).1 := by
  obtain ⟨payloads, hflat, hpayloads, hisFrag⟩ := h.payloads
  have hsize := length_assignSequences lastSeqNo frags
  have h64 := nMaxFragments'.toNat_lt
  refine ⟨payloads, ?_⟩
  constructor
  case two_le => omega
  case le_max => omega
  case flatten => exact hflat
  case length_payloads => omega
  case isTlv => exact pkt.isTlv
  case length_lt => exact hlength
  all_goals
    rw [hsize]
    intro i hi
    rw [assignSequences_getD lastSeqNo frags hi]
  case isFragment =>
    have := hisFrag i hi
    rw [Nat.zero_add] at this
    exact this.set_sequence
  case has_sequence => rw [has_eq_isSome, value?_set_self]; rfl
  case sequence =>
    refine ⟨(lastSeqNo + 1 + i) % 2 ^ 64, ?_, messageIdentifier_sequence lastSeqNo (by omega)⟩
    rw [getSequence, value?_set_self, Option.bind_some,
      decodeSequence_encodeSequence (Nat.mod_lt _ (by decide))]
    rfl

theorem Fragmented.reassembles {E : Type} [DecidableEq E]
    (h : Fragmented nMaxFragments pkt mtu frags) (hmax : frags.length ≤ nMaxFragments'.toNat)
    (hlength : pkt.netPkt.length < 2 ^ 32) (lastSeqNo : ℕ) (endpoint : E) :
    LpReassembler.Reassembles nMaxFragments' (endpoint, (lastSeqNo + 1) % 2 ^ 64) pkt.netPkt
        (assignSequences lastSeqNo frags).1 ∧
      pkt.Carries ((assignSequences lastSeqNo frags).1.getD 0 {}) := by
  have hother : ∀ (p : LpPacket) (v : Bytes), pkt.Carries p → pkt.Carries (p.set tlvSequence v) :=
    fun p v hp => (filter_set _ fun _ => rfl).trans hp
  rcases h with ⟨rfl, -⟩ | ⟨htwo, -, hcut, hcarries⟩
  · refine ⟨?_, hother _ _ pkt.carries_toLp⟩
    refine LpReassembler.reassembles_single hmax ?_ ?_ ?_ ?_ pkt.isTlv _
    · rw [has_eq_isSome, value?_set_of_ne (by decide), ← has_eq_isSome, pkt.has_fragIndex]
    · rw [has_eq_isSome, value?_set_of_ne (by decide), ← has_eq_isSome, pkt.has_fragCount]
    · rw [has_eq_isSome, value?_set_of_ne (by decide), ← has_eq_isSome, pkt.has_fragment]
    · rw [getFragment, value?_set_of_ne (by decide), ← getFragment, pkt.getFragment_toLp]
  · obtain ⟨payloads, hmessage⟩ := hcut.message htwo hmax hlength lastSeqNo
    refine ⟨hmessage.reassembles endpoint, ?_⟩
    rw [assignSequences_getD lastSeqNo frags (by omega)]
    exact hother _ _ hcarries

theorem count_map_receptionOf (netPkt : Bytes) (firstFrag : LpPacket) (l : List Bool) :
    (l.map (LpReassembler.receptionOf netPkt firstFrag)).count (.complete netPkt firstFrag) =
      l.count true := by
  induction l with
  | nil => rfl
  | cons b l ih =>
    rw [List.map_cons, List.count_cons, List.count_cons, ih]
    cases b <;> simp [LpReassembler.receptionOf]

end RoundTrip

/-- **Round trip of a network packet.** Fragmentation fails no assertion. What it returns fits in the
MTU, and is one packet without FragIndex and FragCount or at least two fragments. When these get
consecutive Sequence numbers and arrive in any order, repeated, and between packets of other
messages, at a receiver that accepts so many fragments, then each arrival that completes the set of
fragments received since the last completion yields the network packet, with a first packet that has
all the header fields; the other arrivals yield nothing. If every fragment arrives and some fragment
arrives only once, the network packet is yielded exactly once. -/
theorem fragmentPacket_reassembles (nMaxFragments : UInt64) (pkt : NetPacket) (mtu : ℕ) :
    fragmentPacket nMaxFragments pkt.toLp mtu ≠ none ∧
    ∀ frags, fragmentPacket nMaxFragments pkt.toLp mtu = some (some frags) →
      (∀ frag ∈ frags, ∃ w, frag.wireSize = some w ∧ w ≤ mtu) ∧
      (frags.length = 1 ∧ (∀ frag ∈ frags,
          frag.has tlvFragIndex = false ∧ frag.has tlvFragCount = false) ∨
        2 ≤ frags.length) ∧
      ∀ (nMaxFragments' : UInt64) (lastSeqNo : ℕ) (E : Type) [DecidableEq E] (endpoint : E)
        (m : LpReassembler E) (arrivals : List (Arrival E)),
        frags.length ≤ nMaxFragments'.toNat → pkt.netPkt.length < 2 ^ 32 →
        m (endpoint, (lastSeqNo + 1) % 2 ^ 64) = none →
        (∀ a ∈ arrivals, LpReassembler.Foreign (endpoint, (lastSeqNo + 1) % 2 ^ 64) a) →
        (∀ i ∈ Arrival.fragments arrivals, i < frags.length) →
        ∃ firstFrag, pkt.Carries firstFrag ∧
          m.received nMaxFragments' endpoint (assignSequences lastSeqNo frags).1 arrivals =
            (completions frags.length ∅ (Arrival.fragments arrivals)).map
              (fun isComplete => if isComplete then .complete pkt.netPkt firstFrag else .dropped) ∧
          ((∀ i < frags.length, i ∈ Arrival.fragments arrivals) →
            (∃ i < frags.length, (Arrival.fragments arrivals).count i = 1) →
            (m.received nMaxFragments' endpoint (assignSequences lastSeqNo frags).1 arrivals).count
              (.complete pkt.netPkt firstFrag) = 1) := by
  obtain ⟨r, hr, hspec⟩ := fragmentPacket_spec nMaxFragments pkt mtu
  refine ⟨by simp [hr], ?_⟩
  intro frags hfrags
  have hfragmented := hspec frags (Option.some.inj (hr.symm.trans hfrags))
  refine ⟨?_, ?_, ?_⟩
  · rcases hfragmented with ⟨rfl, hfit⟩ | ⟨-, -, hcut, -⟩
    · simpa using hfit
    · exact hcut.fit
  · rcases hfragmented with ⟨rfl, -⟩ | ⟨htwo, -⟩
    · exact .inl ⟨rfl, by simp [pkt.has_fragIndex, pkt.has_fragCount]⟩
    · exact .inr htwo
  · intro nMaxFragments' lastSeqNo E _ endpoint m arrivals hmax hlength hm hforeign hlt
    obtain ⟨hreassembles, hcarries⟩ := hfragmented.reassembles hmax hlength lastSeqNo endpoint
    have hsize := length_assignSequences lastSeqNo frags
    have hpos : 0 < frags.length := by
      rcases hfragmented with ⟨rfl, -⟩ | ⟨htwo, -⟩
      · exact Nat.one_pos
      · omega
    have hcollected : LpReassembler.Collected (endpoint, (lastSeqNo + 1) % 2 ^ 64)
        (assignSequences lastSeqNo frags).1 ∅ m :=
      ⟨by simp, by rwa [Finset.card_empty, hsize], by simpa using hm⟩
    have hrun := LpReassembler.received_eq hreassembles arrivals hcollected hforeign (by rwa [hsize])
    rw [hsize] at hrun
    refine ⟨_, hcarries, hrun, fun hall ⟨i, hi, hone⟩ => ?_⟩
    have hle : (completions frags.length ∅ (Arrival.fragments arrivals)).count true ≤
      (Arrival.fragments arrivals).count i := count_completions_le hi (by simp) hlt
    have hge : 1 ≤ (completions frags.length ∅ (Arrival.fragments arrivals)).count true :=
      one_le_count_completions (by simp) (by simpa using hpos) hlt fun i hi => .inr (hall i hi)
    rw [hrun, count_map_receptionOf]
    omega

def markedData : NetPacket where
  header := [⟨tlvSequence, encodeSequence 7⟩, ⟨832, [1]⟩]
  netPkt := [6, 51] ++ List.replicate 51 7
  header_type := by decide
  isTlv := by decide

def markedFrags : List LpPacket := ((fragmentPacket 400 markedData.toLp 90).getD none).getD []

/-- The fragments of `markedData` arrive out of order, the second one twice, around the packet of
another message; the packet is yielded once. -/
theorem fragmentPacket_reassembles_markedData :
    fragmentPacket 400 markedData.toLp 90 = some (some markedFrags) ∧ markedFrags.length = 2 ∧
    ∃ firstFrag, markedData.Carries firstFrag ∧
      (LpReassembler.received 400 () (assignSequences (2 ^ 64 - 2) markedFrags).1 (fun _ => none)
        [.fragment 1, .other () markedData.toLp, .fragment 1, .timeout ((), 5), .fragment 0]).count
        (.complete markedData.netPkt firstFrag) = 1 := by
  have hfrags : fragmentPacket 400 markedData.toLp 90 = some (some markedFrags) := by decide
  have hlength : markedFrags.length = 2 := by decide
  have hforeign : ∀ a ∈ ([.fragment 1, .other () markedData.toLp, .fragment 1, .timeout ((), 5),
      .fragment 0] : List (Arrival Unit)),
      LpReassembler.Foreign ((), (2 ^ 64 - 2 + 1) % 2 ^ 64) a := by
    have hseq : markedData.toLp.getSequence tlvSequence = some 7 := by decide
    have hindex : markedData.toLp.fragIndex = some 0 := by decide
    simp [LpReassembler.Foreign, LpReassembler.messageIdentifier, hseq, hindex]
  refine ⟨hfrags, hlength, ?_⟩
  obtain ⟨firstFrag, hcarries, -, honce⟩ := ((fragmentPacket_reassembles 400 markedData 90).2 _
    hfrags).2.2 400 (2 ^ 64 - 2) Unit () (fun _ => none) _ (by rw [hlength]; decide) (by decide) rfl
    hforeign (by rw [hlength]; decide)
  exact ⟨firstFrag, hcarries, honce (by rw [hlength]; decide) (by rw [hlength]; decide)⟩

/-- The same fragments arriving twice yield the packet twice, with a first packet that has another
Sequence than the original; a receiver that accepts fewer fragments yields nothing. -/
theorem not_exactlyOnce_markedData :
    fragmentPacket 400 markedData.toLp 90 = some (some markedFrags) ∧
      (LpReassembler.received 400 () (assignSequences 0 markedFrags).1 (fun _ => none)
        [.fragment 0, .fragment 1, .fragment 0, .fragment 1]).count
        (.complete markedData.netPkt ((assignSequences 0 markedFrags).1.getD 0 {})) = 2 ∧
      ((assignSequences 0 markedFrags).1.getD 0 {}).getSequence tlvSequence ≠
        markedData.toLp.getSequence tlvSequence ∧
      LpReassembler.received 1 () (assignSequences 0 markedFrags).1 (fun _ => none)
        [.fragment 0, .fragment 1] = [.dropped, .dropped] := by
  decide

end Ns3Ndn
