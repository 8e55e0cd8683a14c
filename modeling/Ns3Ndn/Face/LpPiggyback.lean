import Ns3Ndn.Face.LpReliability

/-!
# Piggybacked acks

`LpReliability::piggyback` puts acks from the queue on a packet that is about to be sent, as many as fit, and the
idle timer sends empty packets until the queue is empty. The space that is kept for the growth of the outer
TLV-LENGTH comes from the size of the whole packet instead of the size of its value, and is two octets at most.
An empty packet has room for an ack only from an MTU of 16 on.

Whether `checkCongestionLevel` marks a packet depends on the transport and on the time, and is left open.

* **`piggyback_fits_iff`**: the packet stays within the MTU unless the MTU is in one of the gaps;
* **`idleAckLoop_drains_iff`**: when the idle timer sends all acks.
-/

namespace Ns3Ndn

open OrdLib Tlv LpPacket

def MTU_UNLIMITED : ℤ := -1

def MAX_NDN_PACKET_SIZE : ℕ := 8800

def tlvCongestionMark : ℕ := 832

namespace LpPacket

/-- `wireEncode().type()`. -/
def wireType (p : LpPacket) : Option ℕ :=
  if p.elements.map Element.type = [tlvFragment] then
    (((p.value? tlvFragment).bind fun b => (parse b.length b).bind List.head?).bind readType).map Prod.fst
  else some tlvLpPacket

def acks (p : LpPacket) : List Bytes := (p.elements.filter (·.type == tlvAck)).map Element.value

/-- The elements are in the field order, as `wireDecode` demands and `add` keeps it. -/
def Ordered (p : LpPacket) : Prop :=
  p.elements.Pairwise fun e e' => compareFieldSortOrder e'.type e.type = false

end LpPacket

namespace LpReliability

/-- The size of an Ack: TLV-TYPE, TLV-LENGTH and `lp::Sequence`. -/
def ackSize : ℕ := sizeOfVarNumber tlvAck + sizeOfVarNumber 8 + 8

def piggybackLoop : (remainingSpace : ℤ) → (ackQueue : List ℕ) → LpPacket → LpPacket × List ℕ
  | _, [], pkt => (pkt, [])
  | remainingSpace, ackTxSeq :: ackQueue, pkt =>
    if remainingSpace < ackSize then (pkt, ackTxSeq :: ackQueue)
    else
      piggybackLoop (remainingSpace - ackSize) ackQueue (pkt.insertField tlvAck (encodeSequence ackTxSeq))

/-- `piggyback`: the packet must be encoded as an LpPacket. -/
def piggyback (s : LpReliability) (pkt : LpPacket) (mtu : ℤ) : Except Fault (LpPacket × LpReliability) :=
  match pkt.wireSize with
  | none => .error .assertion
  | some pktSize =>
    if pkt.wireType ≠ some tlvLpPacket then .error .assertion
    else
      let reservedSpace : ℤ := sizeOfVarNumber MAX_NDN_PACKET_SIZE - sizeOfVarNumber pktSize
      let remainingSpace := (if mtu = MTU_UNLIMITED then (MAX_NDN_PACKET_SIZE : ℤ) else mtu) - reservedSpace - pktSize
      let (pkt, ackQueue) := piggybackLoop remainingSpace s.ackQueue pkt
      .ok (pkt, { s with ackQueue })

/-- `GenericLinkService::sendLpPacket`: a packet over the MTU is dropped. -/
def sendLpPacket (s : LpReliability) (mtu : ℤ) (isMarked : Bool) (pkt : LpPacket) : Except Fault LpReliability :=
  (s.piggyback pkt mtu).bind fun (pkt, s) =>
  let pkt := if isMarked then pkt.set tlvCongestionMark (encodeNonNegativeInteger 1) else pkt
  match pkt.wireSize with
  | none => .error .assertion
  | some size => if mtu ≠ MTU_UNLIMITED ∧ mtu < size then .ok s else .ok { s with sent := s.sent ++ [pkt] }

/-- `GenericLinkService::requestIdlePacket`. -/
def requestIdlePacket (s : LpReliability) (mtu : ℤ) (isMarked : Bool) : Except Fault LpReliability :=
  s.sendLpPacket mtu isMarked {}

def idleAckLoop (mtu : ℤ) (marks : ℕ → Bool) : (fuel : ℕ) → LpReliability → Except Fault LpReliability
  | 0, _ => .error .endless
  | fuel + 1, s =>
    if s.ackQueue.isEmpty then .ok s
    else (s.requestIdlePacket mtu (marks 0)).bind (idleAckLoop mtu (fun i => marks (i + 1)) fuel)

theorem idleAckLoop_succ (mtu : ℤ) (marks : ℕ → Bool) (fuel : ℕ) (s : LpReliability) :
    idleAckLoop mtu marks (fuel + 1) s = if s.ackQueue.isEmpty then .ok s
      else (s.requestIdlePacket mtu (marks 0)).bind (idleAckLoop mtu (fun i => marks (i + 1)) fuel) := rfl

end LpReliability

/-! ## Packets with acks -/

theorem Tlv.sizeOfVarNumber_mono {m n : ℕ} (h : m ≤ n) : sizeOfVarNumber m ≤ sizeOfVarNumber n := by
  unfold sizeOfVarNumber
  split_ifs <;> omega

namespace LpPacket

variable {p : LpPacket} {t : ℕ} {v : Bytes}

theorem not_compareFieldSortOrder_trans {a b c : ℕ} (h : compareFieldSortOrder b a = false)
    (h' : compareFieldSortOrder c b = false) : compareFieldSortOrder c a = false := by
  unfold compareFieldSortOrder at *
  grind

theorem compareFieldSortOrder_asymm {a b : ℕ} (h : compareFieldSortOrder a b = true) :
    compareFieldSortOrder b a = false := by
  unfold compareFieldSortOrder at *
  grind

theorem compareFieldSortOrder_of_mem_dropWhile (h : p.Ordered) {e : Element}
    (he : e ∈ p.elements.dropWhile fun e => ! compareFieldSortOrder t e.type) :
    compareFieldSortOrder t e.type = true := by
  cases hdrop : p.elements.dropWhile fun e => ! compareFieldSortOrder t e.type with
  | nil =>
    rw [hdrop] at he
    cases he
  | cons e₀ rest =>
    have hfirst : compareFieldSortOrder t e₀.type = true := by
      have := List.head_dropWhile_not (fun e : Element => ! compareFieldSortOrder t e.type)
        (l := p.elements) (by rw [hdrop]; exact List.cons_ne_nil _ _)
      simpa [hdrop] using this
    have hsorted : (e₀ :: rest).Pairwise fun e e' => compareFieldSortOrder e'.type e.type = false :=
      hdrop ▸ List.Pairwise.sublist (List.dropWhile_sublist _) h
    rw [hdrop] at he
    rcases List.mem_cons.mp he with rfl | he
    · exact hfirst
    · by_contra hne
      have := not_compareFieldSortOrder_trans (List.rel_of_pairwise_cons hsorted he)
        (by simpa using hne : compareFieldSortOrder t e.type = false)
      rw [hfirst] at this
      cases this

theorem Ordered.insertField (h : p.Ordered) (t : ℕ) (v : Bytes) : (p.insertField t v).Ordered := by
  have hafter : ∀ e ∈ p.elements.dropWhile fun e => ! compareFieldSortOrder t e.type,
      compareFieldSortOrder e.type t = false := fun e he =>
    compareFieldSortOrder_asymm (compareFieldSortOrder_of_mem_dropWhile h he)
  have hsplit : p.elements = p.elements.takeWhile (fun e => ! compareFieldSortOrder t e.type) ++
      p.elements.dropWhile fun e => ! compareFieldSortOrder t e.type := List.takeWhile_append_dropWhile.symm
  unfold Ordered LpPacket.insertField
  unfold Ordered at h
  rw [hsplit, List.pairwise_append] at h
  obtain ⟨htake, hdrop, hcross⟩ := h
  refine List.pairwise_append.mpr ⟨htake, List.pairwise_cons.mpr ⟨hafter, hdrop⟩, fun e he e' he' => ?_⟩
  rcases List.mem_cons.mp he' with rfl | he'
  · simpa using List.mem_takeWhile_imp he
  · exact hcross e he e' he'

theorem acks_insertField_ack (h : p.Ordered) (v : Bytes) : (p.insertField tlvAck v).acks = p.acks ++ [v] := by
  have hdrop : (p.elements.dropWhile fun e => ! compareFieldSortOrder tlvAck e.type).filter
      (·.type == tlvAck) = [] :=
    List.filter_eq_nil_iff.mpr fun e he => by
      have := compareFieldSortOrder_of_mem_dropWhile h he
      rintro hack
      rw [beq_iff_eq.mp hack] at this
      exact absurd this (by decide)
  have htake : p.elements.filter (·.type == tlvAck) =
      (p.elements.takeWhile fun e => ! compareFieldSortOrder tlvAck e.type).filter (·.type == tlvAck) := by
    conv_lhs => rw [← List.takeWhile_append_dropWhile (l := p.elements)
      (p := fun e => ! compareFieldSortOrder tlvAck e.type), List.filter_append, hdrop, List.append_nil]
  unfold acks insertField
  rw [List.filter_append, List.filter_cons_of_pos (by simp), hdrop, htake, List.map_append]
  rfl

def addAcks (p : LpPacket) (acks : List ℕ) : LpPacket :=
  acks.foldl (fun p ackTxSeq => p.insertField tlvAck (encodeSequence ackTxSeq)) p

theorem acks_addAcks (h : p.Ordered) (acks : List ℕ) :
    (p.addAcks acks).acks = p.acks ++ acks.map encodeSequence := by
  induction acks generalizing p with
  | nil => simp [LpPacket.addAcks]
  | cons a acks ih =>
    have hcons : p.addAcks (a :: acks) = (p.insertField tlvAck (encodeSequence a)).addAcks acks := rfl
    rw [hcons, ih (h.insertField ..), acks_insertField_ack h, List.map_cons, List.append_assoc]
    rfl

theorem contentSize_addAcks (p : LpPacket) (acks : List ℕ) :
    (p.addAcks acks).contentSize = p.contentSize + 12 * acks.length := by
  induction acks generalizing p with
  | nil => rfl
  | cons a acks ih =>
    have hcons : p.addAcks (a :: acks) = (p.insertField tlvAck (encodeSequence a)).addAcks acks := rfl
    have hsize : Element.size ⟨tlvAck, encodeSequence a⟩ = 12 := by
      change sizeOfVarNumber tlvAck + sizeOfVarNumber (toBytes 8 a).length + (toBytes 8 a).length = 12
      rw [length_toBytes]
      decide
    rw [hcons, ih, contentSize_insertField, hsize, List.length_cons]
    ring

theorem has_ack_addAcks (p : LpPacket) {acks : List ℕ} (h : acks ≠ []) : (p.addAcks acks).has tlvAck = true := by
  have hkeep : ∀ (acks : List ℕ) (p : LpPacket), p.has tlvAck = true → (p.addAcks acks).has tlvAck = true :=
    fun acks p hp => List.foldlRecOn (motive := fun p : LpPacket => p.has tlvAck = true) acks _ hp fun _ hp a _ => by
      rw [has, (insertField_perm).any_eq]
      simp
  cases acks with
  | nil => exact absurd rfl h
  | cons a acks =>
    refine hkeep acks (p.insertField tlvAck (encodeSequence a)) ?_
    rw [has, (insertField_perm).any_eq]
    simp

theorem wireSize_of_has_ack (h : p.has tlvAck = true) :
    p.wireSize = some (1 + sizeOfVarNumber p.contentSize + p.contentSize) := by
  unfold wireSize
  rw [if_neg]
  · rfl
  · intro hbare
    obtain ⟨e, he, htype⟩ := List.any_eq_true.mp h
    have := List.mem_map_of_mem (f := Element.type) he
    rw [hbare, List.mem_singleton, beq_iff_eq.mp htype] at this
    cases this

/-- **The size of a packet with acks.** -/
theorem wireSize_addAcks (p : LpPacket) {acks : List ℕ} (h : acks ≠ []) :
    (p.addAcks acks).wireSize = some (1 + sizeOfVarNumber (p.contentSize + 12 * acks.length) +
      (p.contentSize + 12 * acks.length)) := by
  rw [wireSize_of_has_ack (p.has_ack_addAcks h), contentSize_addAcks]

end LpPacket

namespace LpReliability

/-- **As many acks as there is space for.** -/
theorem piggybackLoop_eq (remainingSpace : ℤ) (ackQueue : List ℕ) (pkt : LpPacket) :
    piggybackLoop remainingSpace ackQueue pkt =
      (pkt.addAcks (ackQueue.take (remainingSpace.toNat / 12)), ackQueue.drop (remainingSpace.toNat / 12)) := by
  have hack : (ackSize : ℤ) = 12 := by decide
  induction ackQueue generalizing remainingSpace pkt with
  | nil => simp [piggybackLoop, addAcks]
  | cons a ackQueue ih =>
    rw [piggybackLoop, hack]
    split_ifs with hspace
    · have hzero : remainingSpace.toNat / 12 = 0 := by omega
      rw [hzero]
      rfl
    · have hsucc : remainingSpace.toNat / 12 = (remainingSpace - 12).toNat / 12 + 1 := by omega
      rw [ih, hsucc]
      rfl

def spaceFor (mtu : ℤ) (pktSize : ℕ) : ℤ :=
  (if mtu = MTU_UNLIMITED then (8800 : ℤ) else mtu) - (3 - sizeOfVarNumber pktSize) - pktSize

/-- **What `piggyback` does.** -/
theorem piggyback_eq (s : LpReliability) {pkt : LpPacket} (htype : pkt.wireType = some tlvLpPacket) {pktSize : ℕ}
    (hsize : pkt.wireSize = some pktSize) (mtu : ℤ) :
    s.piggyback pkt mtu = .ok (pkt.addAcks (s.ackQueue.take ((spaceFor mtu pktSize).toNat / 12)),
      { s with ackQueue := s.ackQueue.drop ((spaceFor mtu pktSize).toNat / 12) }) := by
  have hmax : (sizeOfVarNumber MAX_NDN_PACKET_SIZE : ℤ) = 3 := by decide
  have hunlimited : (MAX_NDN_PACKET_SIZE : ℤ) = 8800 := rfl
  unfold piggyback
  rw [hsize]
  dsimp only
  rw [if_neg (not_not_intro htype), piggybackLoop_eq, hmax, hunlimited]
  rfl

/-! ## The packet and the MTU -/

/-- **Piggybacking respects the MTU**, and the acks on the packet and those in the queue are the ones that were
there, in order. -/
def PiggybacksWithin (s : LpReliability) (pkt : LpPacket) (mtu : ℕ) : Prop :=
  ∃ pkt' s', s.piggyback pkt mtu = .ok (pkt', s') ∧ (∃ size, pkt'.wireSize = some size ∧ size ≤ mtu) ∧
    ∃ added, pkt'.acks = pkt.acks ++ added.map encodeSequence ∧ added ++ s'.ackQueue = s.ackQueue

/-- There is space for `k` acks by the size of the packet, but the packet is too large with them. -/
def Overfills (mtu pktSize contentSize k : ℕ) : Prop :=
  pktSize + 12 * k + 3 ≤ mtu + sizeOfVarNumber pktSize ∧
    mtu < 1 + sizeOfVarNumber (contentSize + 12 * k) + (contentSize + 12 * k)

/-- With less than 64 KiB the outer TLV-LENGTH grows from one octet to three, and two octets are not kept for it
when the packet itself is as large as 253 octets. -/
theorem overfills_iff {mtu contentSize k : ℕ} (hmtu : mtu ≤ 0xFFFF) (hk : 1 ≤ k) :
    Overfills mtu (1 + sizeOfVarNumber contentSize + contentSize) contentSize k ↔
      (1 + sizeOfVarNumber contentSize + contentSize = 253 ∨ 1 + sizeOfVarNumber contentSize + contentSize = 254) ∧
        (mtu = 1 + sizeOfVarNumber contentSize + contentSize + 12 * k ∨
          mtu = 1 + sizeOfVarNumber contentSize + contentSize + 12 * k + 1) := by
  have hone : ∀ {n}, n < 253 → sizeOfVarNumber n = 1 := fun h => if_pos h
  have hthree : ∀ {n}, 253 ≤ n → n ≤ 0xFFFF → sizeOfVarNumber n = 3 := fun h h' => by
    rw [sizeOfVarNumber, if_neg (not_lt.mpr h), if_pos h']
  unfold Overfills
  by_cases hmid : contentSize + 12 * k ≤ 0xFFFF
  · rcases lt_or_ge contentSize 253 with hsmall | hsmall
    · rw [hone hsmall]
      rcases lt_or_ge (1 + 1 + contentSize) 253 with hpkt | hpkt <;> rcases lt_or_ge (contentSize + 12 * k) 253 with hall | hall
      · rw [hone hpkt, hone hall]
        omega
      · rw [hone hpkt, hthree hall hmid]
        omega
      · rw [hthree hpkt (by omega), hone hall]
        omega
      · rw [hthree hpkt (by omega), hthree hall hmid]
        omega
    · rw [hthree hsmall (by omega), hthree (show 253 ≤ contentSize + 12 * k by omega) hmid,
        hthree (show 253 ≤ 1 + 3 + contentSize by omega) (by omega)]
      omega
  · -- a packet with so many acks is larger than the MTU
    generalize sizeOfVarNumber contentSize = size at *
    refine iff_of_false (fun h => ?_) (by omega)
    have hfirst := h.1
    by_cases hpkt : 1 + size + contentSize ≤ 0xFFFF
    · rcases lt_or_ge (1 + size + contentSize) 253 with h' | h'
      · rw [hone h'] at hfirst
        omega
      · rw [hthree h' hpkt] at hfirst
        omega
    · have hnine : sizeOfVarNumber (1 + size + contentSize) ≤ 9 := by
        unfold sizeOfVarNumber
        split_ifs <;> decide
      omega

/-- **The packet stays within the MTU exactly when no number of acks in the queue overfills it.** For a packet that
is not a bare Fragment and an MTU below 64 KiB: unless the packet has 253 or 254 octets and the MTU has a multiple
of 12 more, or one more than that. -/
theorem piggyback_fits_iff (s : LpReliability) {pkt : LpPacket} (hpkt : pkt.Ordered)
    (htype : pkt.wireType = some tlvLpPacket) {pktSize mtu : ℕ} (hsize : pkt.wireSize = some pktSize)
    (hmtu : pktSize ≤ mtu) :
    (s.PiggybacksWithin pkt mtu ↔
      ∀ k, 1 ≤ k → k ≤ s.ackQueue.length → ¬ Overfills mtu pktSize pkt.contentSize k) ∧
    (pkt.elements.map Element.type ≠ [tlvFragment] → mtu ≤ 0xFFFF →
      (s.PiggybacksWithin pkt mtu ↔ ∀ k, 1 ≤ k → k ≤ s.ackQueue.length →
        ¬ ((pktSize = 253 ∨ pktSize = 254) ∧ (mtu = pktSize + 12 * k ∨ mtu = pktSize + 12 * k + 1)))) := by
  have heq := s.piggyback_eq htype hsize mtu
  have hspace : spaceFor mtu pktSize = mtu - (3 - sizeOfVarNumber pktSize) - pktSize := by
    rw [spaceFor, if_neg (by rw [MTU_UNLIMITED]; omega)]
  rw [hspace] at heq
  generalize hn : ((mtu : ℤ) - (3 - sizeOfVarNumber pktSize) - pktSize).toNat / 12 = n at heq
  have hlength : (s.ackQueue.take n).length = min n s.ackQueue.length := List.length_take
  have hexact : s.PiggybacksWithin pkt mtu ↔
      ∀ k, 1 ≤ k → k ≤ s.ackQueue.length → ¬ Overfills mtu pktSize pkt.contentSize k := by
    constructor
    · rintro ⟨pkt', s', heq', ⟨size, hsize', hle⟩, -⟩ k hk hkq ⟨hroom, hover⟩
      obtain ⟨rfl, rfl⟩ := Prod.mk.inj (Except.ok.inj (heq.symm.trans heq'))
      have hkn : k ≤ (s.ackQueue.take n).length := by omega
      have hne : s.ackQueue.take n ≠ [] := List.ne_nil_of_length_pos (by omega)
      rw [wireSize_addAcks pkt hne, Option.some_inj] at hsize'
      have := sizeOfVarNumber_mono (m := pkt.contentSize + 12 * k)
        (n := pkt.contentSize + 12 * (s.ackQueue.take n).length) (by omega)
      omega
    · intro h
      refine ⟨_, _, heq, ?_, s.ackQueue.take n, acks_addAcks hpkt _, List.take_append_drop n s.ackQueue⟩
      by_cases hne : s.ackQueue.take n = []
      · rw [hne]
        exact ⟨pktSize, hsize, hmtu⟩
      · refine ⟨_, wireSize_addAcks pkt hne, ?_⟩
        have hpos := List.length_pos_iff.mpr hne
        by_contra hover
        exact h _ hpos (by omega) ⟨by omega, by omega⟩
  refine ⟨hexact, fun hbare hsmall => hexact.trans ?_⟩
  rw [wireSize, if_neg hbare, Option.some_inj] at hsize
  have hone : sizeOfVarNumber tlvLpPacket = 1 := by decide
  rw [hone] at hsize
  refine forall₃_congr fun k hk _ => not_congr ?_
  rw [← hsize]
  exact overfills_iff hsmall hk

def withAcks (ackQueue : List ℕ) : LpReliability := { init 0 with ackQueue }

def fragmentOf (size : ℕ) : LpPacket :=
  ⟨[⟨tlvSequence, encodeSequence 0⟩, ⟨tlvFragment, List.replicate size 0⟩]⟩

theorem fragmentOf_ordered (size : ℕ) : (fragmentOf size).Ordered := by
  refine List.pairwise_pair.mpr ?_
  change compareFieldSortOrder tlvFragment tlvSequence = false
  decide

theorem contentSize_fragmentOf {size : ℕ} (h : size < 253) : (fragmentOf size).contentSize = size + 12 := by
  change 10 + (1 + sizeOfVarNumber (List.replicate size (0 : UInt8)).length + (List.replicate size (0 : UInt8)).length) = _
  rw [List.length_replicate, sizeOfVarNumber, if_pos h]
  omega

theorem wireSize_fragmentOf {size : ℕ} (h : size ≤ 240) : (fragmentOf size).wireSize = some (size + 14) := by
  have hbare : ¬ (fragmentOf size).elements.map Element.type = [tlvFragment] :=
    fun hbare => absurd (List.cons.inj hbare).1 (by decide)
  rw [wireSize, if_neg hbare, contentSize_fragmentOf (by omega)]
  change some (1 + sizeOfVarNumber (size + 12) + (size + 12)) = _
  rw [sizeOfVarNumber, if_pos (by omega), Option.some_inj]
  omega

/-- Three acks on a packet of 254 octets, with space for two. -/
theorem piggyback_fits_fragment : (withAcks [1, 2, 3]).PiggybacksWithin (fragmentOf 240) 289 := by
  refine ((piggyback_fits_iff (withAcks [1, 2, 3]) (fragmentOf_ordered 240) (by decide)
    (wireSize_fragmentOf le_rfl) (by decide)).2 (by decide) (by decide)).mpr ?_
  omega

/-- **One ack on a packet of 253 octets makes 267**, with an MTU of 265. -/
theorem not_piggyback_fits_fragment :
    (fragmentOf 239).Ordered ∧ (fragmentOf 239).wireType = some tlvLpPacket ∧
      (fragmentOf 239).wireSize = some 253 ∧ ¬ (withAcks [1]).PiggybacksWithin (fragmentOf 239) 265 := by
  have hsize : (fragmentOf 239).wireSize = some 253 := wireSize_fragmentOf (by decide)
  refine ⟨fragmentOf_ordered 239, by decide, hsize, ?_⟩
  rintro ⟨pkt', s', heq, ⟨size, hsize', hle⟩, -⟩
  obtain ⟨rfl, -⟩ := Prod.mk.inj (Except.ok.inj
    (((withAcks [1]).piggyback_eq (by decide) hsize 265).symm.trans heq))
  have hover : ((fragmentOf 239).addAcks [1]).wireSize = some 267 := by
    rw [wireSize_addAcks _ (List.cons_ne_nil 1 []), contentSize_fragmentOf (by decide)]
    rfl
  have : size = 267 := Option.some.inj (hsize'.symm.trans hover)
  omega

/-! ## Idle packets -/

def idlePacket (acks : List ℕ) (isMarked : Bool) : LpPacket :=
  if isMarked then (({} : LpPacket).addAcks acks).set tlvCongestionMark (encodeNonNegativeInteger 1)
  else ({} : LpPacket).addAcks acks

def idleSize (nAcks : ℕ) (isMarked : Bool) : ℕ :=
  1 + sizeOfVarNumber (12 * nAcks + if isMarked then 5 else 0) + (12 * nAcks + if isMarked then 5 else 0)

/-- How many acks there is space for in an empty packet. -/
def idleCapacity (mtu : ℤ) : ℕ := ((if mtu = MTU_UNLIMITED then (8800 : ℤ) else mtu) - 4).toNat / 12

def Within (mtu : ℤ) (size : ℕ) : Prop := mtu = MTU_UNLIMITED ∨ size ≤ mtu

theorem ordered_empty : ({} : LpPacket).Ordered := List.Pairwise.nil

theorem acks_idlePacket (acks : List ℕ) (isMarked : Bool) :
    (idlePacket acks isMarked).acks = acks.map encodeSequence := by
  have hacks := acks_addAcks ordered_empty acks
  unfold idlePacket
  split_ifs
  · rw [LpPacket.acks, filter_set _ fun _ => rfl]
    exact hacks
  · exact hacks

theorem type_of_mem_addAcks {acks : List ℕ} {e : Element} (he : e ∈ (({} : LpPacket).addAcks acks).elements) :
    e.type = tlvAck := by
  have hall : ∀ e ∈ (({} : LpPacket).addAcks acks).elements, e.type = tlvAck :=
    List.foldlRecOn (motive := fun p : LpPacket => ∀ e ∈ p.elements, e.type = tlvAck) acks _
      (fun _ h => absurd h List.not_mem_nil) fun p hp a _ e he => by
        rcases List.mem_cons.mp (insertField_perm.mem_iff.mp he) with rfl | he
        · rfl
        · exact hp e he
  exact hall e he

theorem wireSize_idlePacket (acks : List ℕ) (isMarked : Bool) :
    (idlePacket acks isMarked).wireSize = some (idleSize acks.length isMarked) := by
  have hclear : (({} : LpPacket).addAcks acks).clear tlvCongestionMark = ({} : LpPacket).addAcks acks := by
    unfold clear
    rw [List.filter_eq_self.mpr fun e he => by rw [type_of_mem_addAcks he]; rfl]
  have hcontent : (idlePacket acks isMarked).contentSize = 12 * acks.length + if isMarked then 5 else 0 := by
    unfold idlePacket
    split_ifs
    · have hmark : Element.size ⟨tlvCongestionMark, encodeNonNegativeInteger 1⟩ = 5 := by decide
      rw [contentSize_set, hclear, contentSize_addAcks, hmark]
      change 5 + (0 + _) = _
      ring
    · rw [contentSize_addAcks]
      exact Nat.zero_add _
  have hbare : (idlePacket acks isMarked).elements.map Element.type ≠ [tlvFragment] := by
    intro hbare
    obtain ⟨e, he, htype⟩ := List.mem_map.mp (hbare ▸ List.mem_singleton_self tlvFragment)
    unfold idlePacket at he
    split_ifs at he
    · rw [LpPacket.set, hclear] at he
      rcases List.mem_cons.mp (insertField_perm.mem_iff.mp he) with rfl | he
      · cases htype
      · rw [type_of_mem_addAcks he] at htype
        cases htype
    · rw [type_of_mem_addAcks he] at htype
      cases htype
  rw [wireSize, if_neg hbare, hcontent]
  rfl

/-- **One idle packet**: it takes as many acks as there is space for, and is dropped when it is over the MTU. -/
theorem requestIdlePacket_eq (s : LpReliability) (mtu : ℤ) (isMarked : Bool) :
    ∃ packets, s.requestIdlePacket mtu isMarked =
        .ok { s with ackQueue := s.ackQueue.drop (idleCapacity mtu), sent := s.sent ++ packets } ∧
      ((Within mtu (idleSize (s.ackQueue.take (idleCapacity mtu)).length isMarked) ∧
        packets = [idlePacket (s.ackQueue.take (idleCapacity mtu)) isMarked]) ∨
      ¬ Within mtu (idleSize (s.ackQueue.take (idleCapacity mtu)).length isMarked) ∧ packets = []) := by
  have hspace : (spaceFor mtu 2).toNat / 12 = idleCapacity mtu := by
    have htwo : (sizeOfVarNumber 2 : ℤ) = 1 := by decide
    rw [spaceFor, idleCapacity, htwo]
    congr 2
    push_cast
    ring
  have hempty : ({} : LpPacket).wireSize = some 2 := rfl
  have heq := s.piggyback_eq (rfl : ({} : LpPacket).wireType = some tlvLpPacket) hempty mtu
  rw [hspace] at heq
  generalize s.ackQueue.take (idleCapacity mtu) = acks at heq ⊢
  have hsend : s.requestIdlePacket mtu isMarked =
      if mtu ≠ MTU_UNLIMITED ∧ mtu < idleSize acks.length isMarked then
        .ok { s with ackQueue := s.ackQueue.drop (idleCapacity mtu) }
      else
        .ok { s with ackQueue := s.ackQueue.drop (idleCapacity mtu), sent := s.sent ++ [idlePacket acks isMarked] } := by
    have hsize := wireSize_idlePacket acks isMarked
    unfold requestIdlePacket sendLpPacket
    rw [heq]
    unfold idlePacket at *
    change (match (if isMarked then (({} : LpPacket).addAcks acks).set tlvCongestionMark (encodeNonNegativeInteger 1)
      else ({} : LpPacket).addAcks acks).wireSize with | none => _ | some size => _) = _
    rw [hsize]
  rw [hsend]
  by_cases hover : mtu ≠ MTU_UNLIMITED ∧ mtu < idleSize acks.length isMarked
  · refine ⟨[], ?_, Or.inr ⟨?_, rfl⟩⟩
    · rw [if_pos hover, List.append_nil]
    · unfold Within
      omega
  · refine ⟨_, if_neg hover, Or.inl ⟨?_, rfl⟩⟩
    unfold Within
    omega

/-! ## The idle timer -/

/-- **The idle timer sends all acks**: the loop ends with an empty queue, and each ack is in a packet that was sent,
which is within the MTU. -/
def Drains (s : LpReliability) (mtu : ℤ) (marks : ℕ → Bool) : Prop :=
  ∃ fuel t packets, idleAckLoop mtu marks fuel s = .ok t ∧ t.ackQueue = [] ∧ t.sent = s.sent ++ packets ∧
    (∀ p ∈ packets, ∃ size, p.wireSize = some size ∧ Within mtu size) ∧
    packets.flatMap acks = s.ackQueue.map encodeSequence

def PacketsFit (mtu : ℤ) (marks : ℕ → Bool) (nAcks : ℕ) : Prop :=
  ∀ i, i * idleCapacity mtu < nAcks →
    Within mtu (idleSize (min (idleCapacity mtu) (nAcks - i * idleCapacity mtu)) (marks i))

theorem packetsFit_iff {mtu : ℤ} {marks : ℕ → Bool} {nAcks : ℕ} (h : 0 < nAcks) :
    PacketsFit mtu marks nAcks ↔ Within mtu (idleSize (min (idleCapacity mtu) nAcks) (marks 0)) ∧
      PacketsFit mtu (fun i => marks (i + 1)) (nAcks - idleCapacity mtu) := by
  have hrest : ∀ i, (i + 1) * idleCapacity mtu < nAcks ↔ i * idleCapacity mtu < nAcks - idleCapacity mtu := by
    intro i
    rw [Nat.succ_mul]
    omega
  have hsub : ∀ i, nAcks - (i + 1) * idleCapacity mtu = nAcks - idleCapacity mtu - i * idleCapacity mtu := by
    intro i
    rw [Nat.succ_mul]
    omega
  unfold PacketsFit
  constructor
  · intro hfit
    refine ⟨by simpa using hfit 0 (by simpa using h), fun i hi => ?_⟩
    rw [← hsub]
    exact hfit (i + 1) ((hrest i).mpr hi)
  · rintro ⟨hfirst, hothers⟩ i hi
    cases i with
    | zero => simpa using hfirst
    | succ i =>
      rw [hsub]
      exact hothers i ((hrest i).mp hi)

/-- **What a run of the loop has sent**: all the acks just if all packets fit. -/
theorem idleAckLoop_ok {mtu : ℤ} (hcapacity : 0 < idleCapacity mtu) {fuel : ℕ} {s t : LpReliability}
    {marks : ℕ → Bool} (h : idleAckLoop mtu marks fuel s = .ok t) :
    t.ackQueue = [] ∧ ∃ packets, t.sent = s.sent ++ packets ∧
      (∀ p ∈ packets, ∃ size, p.wireSize = some size ∧ Within mtu size) ∧
      (packets.flatMap acks).length ≤ s.ackQueue.length ∧
      (packets.flatMap acks = s.ackQueue.map encodeSequence ↔ PacketsFit mtu marks s.ackQueue.length) := by
  induction fuel generalizing s marks with
  | zero => cases h
  | succ fuel ih =>
    rw [idleAckLoop_succ] at h
    split_ifs at h with hempty
    · obtain rfl := Except.ok.inj h
      have hnil := List.isEmpty_iff.mp hempty
      refine ⟨hnil, [], (List.append_nil _).symm, fun _ hp => absurd hp List.not_mem_nil, Nat.zero_le _, ?_⟩
      rw [hnil]
      exact iff_of_true rfl fun i hi => absurd hi (Nat.not_lt_zero _)
    · have hpos : 0 < s.ackQueue.length := List.length_pos_iff.mpr fun hnil => hempty (by rw [hnil]; rfl)
      obtain ⟨packets, heq, hcase⟩ := s.requestIdlePacket_eq mtu (marks 0)
      rw [heq] at h
      obtain ⟨hdone, rest, hsent, hwithin, hlength, hacks⟩ := ih h
      have hmin : (s.ackQueue.take (idleCapacity mtu)).length = min (idleCapacity mtu) s.ackQueue.length :=
        List.length_take
      have hdrop : (s.ackQueue.drop (idleCapacity mtu)).length = s.ackQueue.length - idleCapacity mtu :=
        List.length_drop
      dsimp only at hsent hlength hacks
      rw [hdrop] at hlength hacks
      refine ⟨hdone, packets ++ rest, ?_, ?_, ?_, ?_⟩
      · rw [hsent, List.append_assoc]
      · intro p hp
        rcases List.mem_append.mp hp with hp | hp
        · rcases hcase with ⟨hfit, rfl⟩ | ⟨-, rfl⟩
          · rw [List.mem_singleton.mp hp]
            exact ⟨_, wireSize_idlePacket _ _, hfit⟩
          · cases hp
        · exact hwithin p hp
      · rw [List.flatMap_append, List.length_append]
        rcases hcase with ⟨-, rfl⟩ | ⟨-, rfl⟩
        · rw [List.flatMap_singleton, acks_idlePacket, List.length_map, hmin]
          omega
        · rw [List.flatMap_nil, List.length_nil]
          omega
      · rw [packetsFit_iff hpos, ← hacks, List.flatMap_append, ← hmin]
        rcases hcase with ⟨hfit, rfl⟩ | ⟨hover, rfl⟩
        · rw [List.flatMap_singleton, acks_idlePacket, and_iff_right hfit]
          conv_lhs => rw [← List.take_append_drop (idleCapacity mtu) s.ackQueue, List.map_append,
            List.take_append_drop]
          exact List.append_cancel_left_eq _ _ _ |>.to_iff
        · refine iff_of_false (fun hall => ?_) fun hfit => hover hfit.1
          -- the acks of a packet that was dropped are gone
          have := congrArg List.length hall
          rw [List.flatMap_nil, List.nil_append, List.length_map] at this
          omega

theorem exists_idleAckLoop {mtu : ℤ} (hcapacity : 0 < idleCapacity mtu) {fuel : ℕ} {s : LpReliability}
    {marks : ℕ → Bool} (h : s.ackQueue.length < fuel) : ∃ t, idleAckLoop mtu marks fuel s = .ok t := by
  induction fuel generalizing s marks with
  | zero => exact absurd h (Nat.not_lt_zero _)
  | succ fuel ih =>
    rw [idleAckLoop_succ]
    split_ifs with hempty
    · exact ⟨s, rfl⟩
    · have hpos : 0 < s.ackQueue.length := List.length_pos_iff.mpr fun hnil => hempty (by rw [hnil]; rfl)
      obtain ⟨packets, heq, -⟩ := s.requestIdlePacket_eq mtu (marks 0)
      rw [heq]
      refine ih ?_
      rw [List.length_drop]
      omega

/-- **The loop does not end** when they have none. -/
theorem idleAckLoop_endless {mtu : ℤ} (hcapacity : idleCapacity mtu = 0) (fuel : ℕ) {s : LpReliability}
    {marks : ℕ → Bool} (h : s.ackQueue ≠ []) : idleAckLoop mtu marks fuel s = .error .endless := by
  induction fuel generalizing s marks with
  | zero => rfl
  | succ fuel ih =>
    obtain ⟨packets, heq, -⟩ := s.requestIdlePacket_eq mtu (marks 0)
    rw [idleAckLoop_succ, if_neg (by simpa using h), heq]
    refine ih ?_
    rw [hcapacity, List.drop_zero]
    exact h

/-- **The idle timer sends all acks exactly when** the MTU is unlimited, or it is at least 16 and all packets that
carry acks, with their marks, are within it. Without marks and below 64 KiB an MTU of 16 is enough. -/
theorem idleAckLoop_drains_iff (s : LpReliability) (hs : s.ackQueue ≠ []) (mtu : ℤ)
    (marks : ℕ → Bool) :
    (s.Drains mtu marks ↔ mtu = MTU_UNLIMITED ∨ 16 ≤ mtu ∧ PacketsFit mtu marks s.ackQueue.length) ∧
      (mtu ≤ 0xFFFF → (∀ i, marks i = false) → (s.Drains mtu marks ↔ mtu = MTU_UNLIMITED ∨ 16 ≤ mtu)) := by
  have hcapacity : 0 < idleCapacity mtu ↔ mtu = MTU_UNLIMITED ∨ 16 ≤ mtu := by
    unfold idleCapacity
    split_ifs with hunlimited
    · exact iff_of_true (by decide) (Or.inl hunlimited)
    · omega
  have hdrains : s.Drains mtu marks ↔ 0 < idleCapacity mtu ∧ PacketsFit mtu marks s.ackQueue.length := by
    constructor
    · rintro ⟨fuel, t, packets, hloop, -, hsent, -, hacks⟩
      have hpos : 0 < idleCapacity mtu := by
        by_contra hzero
        rw [idleAckLoop_endless (Nat.eq_zero_of_not_pos hzero) fuel hs] at hloop
        cases hloop
      obtain ⟨-, packets', hsent', -, -, hiff⟩ := idleAckLoop_ok hpos hloop
      rw [hsent, List.append_cancel_left_eq] at hsent'
      exact ⟨hpos, hiff.mp (hsent' ▸ hacks)⟩
    · rintro ⟨hpos, hfit⟩
      obtain ⟨t, hloop⟩ : ∃ t, idleAckLoop mtu marks (s.ackQueue.length + 1) s = .ok t :=
        exists_idleAckLoop hpos (Nat.lt_succ_self _)
      obtain ⟨hdone, packets, hsent, hwithin, -, hiff⟩ := idleAckLoop_ok hpos hloop
      exact ⟨_, t, packets, hloop, hdone, hsent, hwithin, hiff.mpr hfit⟩
  have hexact : s.Drains mtu marks ↔ mtu = MTU_UNLIMITED ∨ 16 ≤ mtu ∧ PacketsFit mtu marks s.ackQueue.length := by
    rw [hdrains, hcapacity]
    constructor
    · rintro ⟨h | h, hfit⟩
      · exact Or.inl h
      · exact Or.inr ⟨h, hfit⟩
    · rintro (h | ⟨h, hfit⟩)
      · exact ⟨Or.inl h, fun _ _ => Or.inl h⟩
      · exact ⟨Or.inr h, hfit⟩
  refine ⟨hexact, fun hsmall hmarks => hexact.trans (or_congr_right (and_iff_left_of_imp fun h i _ => Or.inr ?_))⟩
  have hk : ∀ k, k ≤ idleCapacity mtu → (idleSize k false : ℤ) ≤ mtu := by
    intro k hk
    have hroom : (12 * k : ℤ) + 4 ≤ mtu := by
      unfold idleCapacity at hk
      rw [if_neg (by rw [MTU_UNLIMITED]; omega)] at hk
      omega
    have hlength : sizeOfVarNumber (12 * k) ≤ 3 := by
      unfold sizeOfVarNumber
      split_ifs <;> omega
    change ((1 + sizeOfVarNumber (12 * k) + 12 * k : ℕ) : ℤ) ≤ mtu
    omega
  rw [hmarks i]
  exact hk _ (min_le_left _ _)

/-- Three acks, with an MTU of 30: two in the first packet. -/
theorem idleAckLoop_drains_withAcks : (withAcks [1, 2, 3]).Drains 30 fun _ => false :=
  ((idleAckLoop_drains_iff (withAcks [1, 2, 3]) (List.cons_ne_nil _ _) 30 _).2 (by decide)
    fun _ => rfl).mpr (Or.inr (by decide))

/-- **With an MTU of 15 the loop does not end**, and with an MTU of 16 the first ack is lost when the packet is
marked. -/
theorem not_idleAckLoop_drains_withAcks :
    ¬ (withAcks [1]).Drains 15 (fun _ => false) ∧ ¬ (withAcks [1]).Drains 16 fun _ => true := by
  constructor
  · rintro ⟨fuel, t, packets, hloop, -⟩
    rw [idleAckLoop_endless (by decide) fuel (List.cons_ne_nil _ _)] at hloop
    cases hloop
  · rintro ⟨fuel, t, packets, hloop, -, hsent, -, hacks⟩
    obtain ⟨-, packets', hsent', -, -, hiff⟩ := idleAckLoop_ok (by decide) hloop
    rw [hsent, List.append_cancel_left_eq] at hsent'
    have hfit := hiff.mp (hsent' ▸ hacks) 0 (by decide)
    revert hfit
    unfold Within
    decide

end LpReliability

end Ns3Ndn
