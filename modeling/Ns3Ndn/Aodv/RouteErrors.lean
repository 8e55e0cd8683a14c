import Mathlib
import Ns3Ndn.Aodv.RoutingTable
import Ns3Ndn.Lib.Bytes
import Ns3Ndn.Lib.Loop

/-!
# Route errors

`aodv/model/aodv-packet.cc`, `aodv/model/aodv-routing-protocol.cc`: a RERR message lists unreachable destinations, with a count of one byte. The
loops that fill a header wait for it to refuse a destination, but `AddUnDestination` does not refuse: its assertion fails at the 256th one.

* `fill_spec`, `length_of_fill`: the loop, and the headers that it does not overfill;
* `recvError_reported`, **`brokenLinkReported_iff`**, `reportsBrokenRoutes_iff`: when the broken routes are reported.
-/

namespace Ns3Ndn.Aodv

open OrdLib BytesLib LoopLib Internet

/-! ## The header -/

/-- `RerrHeader` -/
structure RerrHeader where
  flag : UInt8 := 0
  reserved : UInt8 := 0
  unreachableDstSeqNo : OrdMap Ipv4Address UInt32 := OrdMap.empty

namespace RerrHeader

variable (h : RerrHeader)

/-- `GetDestCount`, a cast to one byte. -/
def getDestCount : UInt8 := UInt8.ofNat h.unreachableDstSeqNo.toList.length

def getSerializedSize : ℕ := 3 + 8 * h.getDestCount.toNat

/-- A destination and its sequence number, each in network order. -/
def writeDestination (un : Ipv4Address × UInt32) : List UInt8 := be32 un.1.toNat ++ be32 un.2.toNat

def serialize : List UInt8 :=
  [h.flag, h.reserved, h.getDestCount] ++ h.unreachableDstSeqNo.toList.flatMap writeDestination

/-- The loop of `Deserialize`. -/
def readDestinations : ℕ → List UInt8 → OrdMap Ipv4Address UInt32 → Option (OrdMap Ipv4Address UInt32 × List UInt8)
  | 0, p, m => some (m, p)
  | k + 1, p, m =>
    (readBe32 p).bind fun (address, p) => (readBe32 p).bind fun (seqNo, p) =>
      readDestinations k p (m.insertNew (UInt32.ofNat address) (UInt32.ofNat seqNo))

/-- `Deserialize` (`RemoveHeader`): the header and the rest of the packet, if the assertion on the size holds. -/
def deserialize (p : List UInt8) : Option (RerrHeader × List UInt8) :=
  (readU8 p).bind fun (flag, p) => (readU8 p).bind fun (reserved, p) => (readU8 p).bind fun (dest, p) =>
    (readDestinations dest.toNat p OrdMap.empty).bind fun (m, p) =>
      let h : RerrHeader := { flag, reserved, unreachableDstSeqNo := m }
      if 3 + 8 * dest.toNat = h.getSerializedSize then some (h, p) else none

/-- `AddUnDestination`: without a result when the assertion fails. -/
def addUnDestination (dst : Ipv4Address) (seqNo : UInt32) : Option (Bool × RerrHeader) :=
  if (h.unreachableDstSeqNo.find? dst).isSome then some (true, h)
  else if h.getDestCount < 255 then
    some (true, { h with unreachableDstSeqNo := h.unreachableDstSeqNo.insertNew dst seqNo })
  else none

def removeUnDestination : Option ((Ipv4Address × UInt32) × RerrHeader) :=
  h.unreachableDstSeqNo.toList.head?.map fun un =>
    (un, { h with unreachableDstSeqNo := h.unreachableDstSeqNo.erase un.1 })

def clear (_ : RerrHeader) : RerrHeader := { flag := 0, reserved := 0, unreachableDstSeqNo := OrdMap.empty }

theorem readDestinations_write (l : List (Ipv4Address × UInt32)) (rest : List UInt8) (m : OrdMap Ipv4Address UInt32) :
    readDestinations l.length (l.flatMap writeDestination ++ rest) m = some (m.insertAll l, rest) := by
  induction l generalizing m with
  | nil => rfl
  | cons un l ih =>
    obtain ⟨dst, seqNo⟩ := un
    rw [List.flatMap_cons, List.append_assoc, writeDestination, List.append_assoc, List.length_cons, readDestinations,
      readBe32_be32 dst.toNat_lt, Option.bind_some]
    show (readBe32 (be32 seqNo.toNat ++ _)).bind _ = _
    rw [readBe32_be32 seqNo.toNat_lt, Option.bind_some]
    show readDestinations l.length _ (m.insertNew (UInt32.ofNat dst.toNat) (UInt32.ofNat seqNo.toNat)) = _
    rw [UInt32.ofNat_toNat, UInt32.ofNat_toNat]
    exact ih _

variable {h}

theorem toNat_getDestCount (hle : h.unreachableDstSeqNo.toList.length ≤ 255) :
    h.getDestCount.toNat = h.unreachableDstSeqNo.toList.length := by
  rw [getDestCount, UInt8.toNat_ofNat', Nat.mod_eq_of_lt (by omega)]

theorem length_of_readDestinations {k : ℕ} {p p' : List UInt8} {m m' : OrdMap Ipv4Address UInt32}
    (hr : readDestinations k p m = some (m', p')) : m'.toList.length ≤ m.toList.length + k := by
  induction k generalizing p m with
  | zero =>
    obtain ⟨rfl, -⟩ := Prod.mk.inj (Option.some.inj hr)
    exact le_rfl
  | succ k ih =>
    obtain ⟨⟨address, p₁⟩, -, hr⟩ := Option.bind_eq_some_iff.mp hr
    obtain ⟨⟨seqNo, p₂⟩, -, hr⟩ := Option.bind_eq_some_iff.mp hr
    refine (ih hr).trans ?_
    cases hfind : m.find? (UInt32.ofNat address) with
    | some w =>
      rw [OrdMap.insertNew_of_some _ hfind]
      omega
    | none =>
      rw [OrdMap.length_insertNew_of_none _ hfind]
      omega

theorem length_of_deserialize {p rest : List UInt8} (hr : deserialize p = some (h, rest)) : h.unreachableDstSeqNo.toList.length ≤ 255 := by
  obtain ⟨⟨flag, p₁⟩, -, hr⟩ := Option.bind_eq_some_iff.mp hr
  obtain ⟨⟨reserved, p₂⟩, -, hr⟩ := Option.bind_eq_some_iff.mp hr
  obtain ⟨⟨dest, p₃⟩, -, hr⟩ := Option.bind_eq_some_iff.mp hr
  obtain ⟨⟨m, p₄⟩, hread, hr⟩ := Option.bind_eq_some_iff.mp hr
  have hm := length_of_readDestinations hread
  have hdest := dest.toNat_lt
  simp only [Option.ite_none_right_eq_some, Option.some.injEq, Prod.mk.injEq] at hr
  obtain ⟨-, rfl, -⟩ := hr
  refine hm.trans ?_
  show 0 + dest.toNat ≤ 255
  omega

/-- **A header is read back.** -/
theorem deserialize_serialize (hle : h.unreachableDstSeqNo.toList.length ≤ 255) : deserialize h.serialize = some (h, []) := by
  have hread := readDestinations_write h.unreachableDstSeqNo.toList [] OrdMap.empty
  rw [List.append_nil, OrdMap.insertAll_toList, ← toNat_getDestCount hle] at hread
  show (readDestinations h.getDestCount.toNat (h.unreachableDstSeqNo.toList.flatMap writeDestination) OrdMap.empty).bind _ = _
  rw [hread, Option.bind_some]
  exact if_pos rfl

theorem addUnDestination_of_lt {dst : Ipv4Address} {seqNo : UInt32}
    (hroom : (h.unreachableDstSeqNo.find? dst).isSome ∨ h.unreachableDstSeqNo.toList.length < 255) :
    h.addUnDestination dst seqNo = some (true, { h with unreachableDstSeqNo := h.unreachableDstSeqNo.insertNew dst seqNo }) := by
  unfold addUnDestination
  cases hfind : h.unreachableDstSeqNo.find? dst with
  | some w => rw [Option.isSome_some, if_pos rfl, OrdMap.insertNew_of_some _ hfind]
  | none =>
    have hlt := hroom.resolve_left (by rw [hfind]; exact Bool.false_ne_true)
    rw [Option.isSome_none, if_neg Bool.false_ne_true, if_pos]
    rw [UInt8.lt_iff_toNat_lt, toNat_getDestCount hlt.le]
    exact hlt

theorem length_of_addUnDestination {dst : Ipv4Address} {seqNo : UInt32} {r : Bool × RerrHeader}
    (hle : h.unreachableDstSeqNo.toList.length ≤ 255) (hr : h.addUnDestination dst seqNo = some r) :
    r = (true, { h with unreachableDstSeqNo := h.unreachableDstSeqNo.insertNew dst seqNo }) ∧
      (h.unreachableDstSeqNo.insertNew dst seqNo).toList.length ≤ 255 := by
  unfold addUnDestination at hr
  cases hfind : h.unreachableDstSeqNo.find? dst with
  | some w =>
    rw [hfind, Option.isSome_some, if_pos rfl] at hr
    rw [OrdMap.insertNew_of_some _ hfind]
    exact ⟨(Option.some.inj hr).symm, hle⟩
  | none =>
    rw [hfind, Option.isSome_none, if_neg Bool.false_ne_true] at hr
    by_cases hlt : h.getDestCount < 255
    · rw [if_pos hlt] at hr
      rw [UInt8.lt_iff_toNat_lt, toNat_getDestCount hle] at hlt
      rw [OrdMap.length_insertNew_of_none _ hfind]
      exact ⟨(Option.some.inj hr).symm, hlt⟩
    · rw [if_neg hlt] at hr
      cases hr

end RerrHeader

/-! ## The code -/

/-- A call of `SendRerrMessage`: the header the message is built from, the packet (without its type) and the precursors. -/
structure RerrMessage where
  header : RerrHeader
  packet : List UInt8
  precursors : List Ipv4Address

def RerrMessage.of (header : RerrHeader) (precursors : List Ipv4Address) : RerrMessage :=
  { header, packet := header.serialize, precursors }

/-- The variables of the loop that fills the header: the destinations from `i` on, and the messages sent. -/
structure Filling where
  rest : List (Ipv4Address × UInt32)
  rerrHeader : RerrHeader
  precursors : List Ipv4Address
  routingTable : RoutingTable
  sent : List RerrMessage

namespace Filling

def round (now : Time) (s : Filling) : Option Filling :=
  match s.rest with
  | [] => some s
  | (dst, seqNo) :: rest =>
    (s.rerrHeader.addUnDestination dst seqNo).map fun (added, rerrHeader) =>
      if !added then
        -- the same destination is tried again with an empty header
        { s with rerrHeader := rerrHeader.clear, sent := s.sent ++ [.of rerrHeader s.precursors] }
      else
        let (routingTable, toDst) := s.routingTable.lookupRoute now dst
        { s with rest, rerrHeader, routingTable, precursors := toDst.elim s.precursors fun rt => rt.getPrecursors s.precursors }

def fill (now : Time) (fuel : ℕ) (s : Filling) : Option Filling := whileLoop (fun s => ! s.rest.isEmpty) (round now) fuel s

def messages (s : Filling) : List RerrMessage :=
  if s.rerrHeader.getDestCount ≠ 0 then s.sent ++ [.of s.rerrHeader s.precursors] else s.sent

end Filling

def sendRerrWhenBreaksLinkToNextHop (fuel : ℕ) (now : Time) (t : RoutingTable) (nextHop : Ipv4Address) :
    Option (RoutingTable × List RerrMessage) :=
  match t.lookupRoute now nextHop with
  | (t, none) => some (t, [])
  | (t, some toNextHop) =>
    (({} : RerrHeader).addUnDestination nextHop toNextHop.seqNo).bind fun (_, rerrHeader) =>
      let (t, unreachable) := t.getListOfDestinationWithNextHop now nextHop
      let precursors := toNextHop.getPrecursors []
      (Filling.fill now fuel { rest := unreachable.toList, rerrHeader, precursors, routingTable := t, sent := [] }).map fun s =>
        (s.routingTable.invalidateRoutesWithDst now (unreachable.insertNew nextHop toNextHop.seqNo), s.messages)

def collectRound (dstWithNextHopSrc : OrdMap Ipv4Address UInt32) (s : RerrHeader × OrdMap Ipv4Address UInt32) :
    Option (RerrHeader × OrdMap Ipv4Address UInt32) :=
  s.1.removeUnDestination.map fun (un, rerrHeader) =>
    (rerrHeader, dstWithNextHopSrc.toList.foldl (fun m i => if i.1 = un.1 then m.insertNew un.1 un.2 else m) s.2)

/-- The loop: the destinations of the header that are in `dstWithNextHopSrc`. -/
def collectUnreachable (dstWithNextHopSrc : OrdMap Ipv4Address UInt32) :
    ℕ → RerrHeader × OrdMap Ipv4Address UInt32 → Option (RerrHeader × OrdMap Ipv4Address UInt32) :=
  whileLoop (fun s => s.1.removeUnDestination.isSome) (collectRound dstWithNextHopSrc)

def recvError (fuel : ℕ) (now : Time) (t : RoutingTable) (p : List UInt8) (src : Ipv4Address) :
    Option (RoutingTable × List RerrMessage) :=
  (RerrHeader.deserialize p).bind fun (rerrHeader, _) =>
    let (t, dstWithNextHopSrc) := t.getListOfDestinationWithNextHop now src
    (collectUnreachable dstWithNextHopSrc fuel (rerrHeader, OrdMap.empty)).bind fun (rerrHeader, unreachable) =>
      (Filling.fill now fuel { rest := unreachable.toList, rerrHeader, precursors := [], routingTable := t, sent := [] }).map fun s =>
        (s.routingTable.invalidateRoutesWithDst now unreachable, s.messages)

/-! ## The loops -/

namespace Filling

variable {now : Time} {s s' : Filling} {fuel : ℕ}

def listed (s : Filling) : OrdMap Ipv4Address UInt32 := s.rerrHeader.unreachableDstSeqNo.insertAll s.rest

theorem round_cons {dst : Ipv4Address} {seqNo : UInt32} {rest : List (Ipv4Address × UInt32)} (hrest : s.rest = (dst, seqNo) :: rest)
    (hroom : (s.rerrHeader.unreachableDstSeqNo.find? dst).isSome ∨ s.rerrHeader.unreachableDstSeqNo.toList.length < 255)
    (hpurged : s.routingTable.purge now = s.routingTable) :
    ∃ precursors, round now s = some { s with rest, precursors, rerrHeader :=
      { s.rerrHeader with unreachableDstSeqNo := s.rerrHeader.unreachableDstSeqNo.insertNew dst seqNo } } := by
  refine ⟨((s.routingTable.lookupRoute now dst).2).elim s.precursors fun rt => rt.getPrecursors s.precursors, ?_⟩
  rw [round, hrest]
  simp only [RerrHeader.addUnDestination_of_lt hroom, Option.map_some, Bool.not_true, Bool.false_eq_true, if_false,
    RoutingTable.lookupRoute, hpurged]

/-- **The loop ends** with the destinations in the header, if it has room for them. -/
theorem fill_spec (hfuel : s.rest.length < fuel) (hle : s.listed.toList.length ≤ 255) (hpurged : s.routingTable.purge now = s.routingTable) :
    ∃ precursors, fill now fuel s =
      some { s with rest := [], precursors, rerrHeader := { s.rerrHeader with unreachableDstSeqNo := s.listed } } := by
  induction fuel generalizing s with
  | zero => exact absurd hfuel (Nat.not_lt_zero _)
  | succ fuel ih =>
    cases hrest : s.rest with
    | nil =>
      have hlisted : s.listed = s.rerrHeader.unreachableDstSeqNo := by
        rw [listed, hrest]
        rfl
      refine ⟨s.precursors, ?_⟩
      rw [fill, whileLoop_of_false (by rw [hrest]; rfl), hlisted, ← hrest]
    | cons un rest =>
      obtain ⟨dst, seqNo⟩ := un
      have hroom : (s.rerrHeader.unreachableDstSeqNo.find? dst).isSome ∨ s.rerrHeader.unreachableDstSeqNo.toList.length < 255 := by
        cases hfind : s.rerrHeader.unreachableDstSeqNo.find? dst with
        | some w => exact Or.inl rfl
        | none =>
          have hstep := (s.rerrHeader.unreachableDstSeqNo.insertNew dst seqNo).length_le_length_insertAll rest
          rw [OrdMap.length_insertNew_of_none _ hfind] at hstep
          rw [listed, hrest] at hle
          exact Or.inr (lt_of_lt_of_le (Nat.lt_succ_self _) (hstep.trans hle))
      obtain ⟨precursors, hround⟩ := round_cons hrest hroom hpurged
      have hlisted : s.listed = (s.rerrHeader.unreachableDstSeqNo.insertNew dst seqNo).insertAll rest := by
        rw [listed, hrest]
        rfl
      rw [fill, whileLoop_of_true (by rw [hrest]; rfl) hround, hlisted]
      refine ih ?_ ?_ hpurged
      · rw [hrest, List.length_cons] at hfuel
        exact Nat.lt_of_succ_lt_succ hfuel
      · rw [hlisted] at hle
        exact hle

theorem length_of_fill (hle : s.rerrHeader.unreachableDstSeqNo.toList.length ≤ 255) (h : fill now fuel s = some s') :
    s.listed.toList.length ≤ 255 := by
  induction fuel generalizing s with
  | zero => cases h
  | succ fuel ih =>
    cases hrest : s.rest with
    | nil =>
      rw [listed, hrest]
      exact hle
    | cons un rest =>
      obtain ⟨dst, seqNo⟩ := un
      rw [fill, whileLoop, if_pos (by rw [hrest]; rfl), Option.bind_eq_some_iff] at h
      obtain ⟨s₁, hround, hloop⟩ := h
      rw [round, hrest] at hround
      obtain ⟨r, hadd, hs₁⟩ := Option.map_eq_some_iff.mp hround
      obtain ⟨rfl, hle'⟩ := RerrHeader.length_of_addUnDestination hle hadd
      simp only [Bool.not_true, Bool.false_eq_true, if_false] at hs₁
      subst hs₁
      have hlisted := ih hle' hloop
      rw [listed, hrest]
      exact hlisted

theorem messages_spec (hsent : s.sent = []) (hle : s.rerrHeader.unreachableDstSeqNo.toList.length ≤ 255) :
    (∀ m ∈ s.messages, RerrHeader.deserialize m.packet = some (m.header, [])) ∧
      ∀ dst seqNo, (∃ m ∈ s.messages, m.header.unreachableDstSeqNo.find? dst = some seqNo) ↔
        s.rerrHeader.unreachableDstSeqNo.find? dst = some seqNo := by
  rw [messages, hsent, List.nil_append]
  by_cases hzero : s.rerrHeader.getDestCount = 0
  · have hempty : s.rerrHeader.unreachableDstSeqNo.toList = [] := by
      rw [← List.length_eq_zero_iff, ← RerrHeader.toNat_getDestCount hle, hzero]
      rfl
    rw [if_neg (not_not.mpr hzero)]
    refine ⟨fun m hm => absurd hm List.not_mem_nil, fun dst seqNo => ?_⟩
    rw [← OrdMap.mem_toList, hempty]
    simp
  · rw [if_pos hzero]
    simp only [List.mem_singleton, forall_eq, exists_eq_left]
    exact ⟨RerrHeader.deserialize_serialize hle, fun dst seqNo => Iff.rfl⟩

end Filling

theorem foldl_insert (l : List (Ipv4Address × UInt32)) (un : Ipv4Address × UInt32) (m : OrdMap Ipv4Address UInt32) :
    l.foldl (fun m i => if i.1 = un.1 then m.insertNew un.1 un.2 else m) m =
      if (lookupL un.1 l).isSome then m.insertNew un.1 un.2 else m := by
  induction l generalizing m with
  | nil => rfl
  | cons i l ih =>
    obtain ⟨a, w⟩ := i
    rw [List.foldl_cons, ih, lookupL]
    by_cases ha : a = un.1
    · simp only [ha, if_true, Option.isSome_some]
      have hfind : ((m.insertNew un.1 un.2).find? un.1).isSome := by
        rw [OrdMap.find?_insertNew, if_pos rfl]
        cases m.find? un.1 <;> rfl
      obtain ⟨w', hw'⟩ := Option.isSome_iff_exists.mp hfind
      rw [OrdMap.insertNew_of_some _ hw', ite_self]
    · simp only [ha, if_false]

/-- **The first loop of `RecvError`** empties the header and keeps its destinations that are in the list. -/
theorem collectUnreachable_spec (d : OrdMap Ipv4Address UInt32) {fuel : ℕ} {h : RerrHeader} {m : OrdMap Ipv4Address UInt32}
    (hfuel : h.unreachableDstSeqNo.toList.length < fuel) :
    collectUnreachable d fuel (h, m) = some ({ h with unreachableDstSeqNo := OrdMap.empty },
      m.insertAll (h.unreachableDstSeqNo.filter fun dst => (d.find? dst).isSome).toList) := by
  induction fuel generalizing h m with
  | zero => exact absurd hfuel (Nat.not_lt_zero _)
  | succ fuel ih =>
    cases hlist : h.unreachableDstSeqNo.toList with
    | nil =>
      have hempty : h.unreachableDstSeqNo = OrdMap.empty := by
        rw [← h.unreachableDstSeqNo.insertAll_toList, hlist]
        rfl
      rw [collectUnreachable, whileLoop_of_false]
      · obtain ⟨flag, reserved, n⟩ := h
        cases hempty
        rfl
      · rw [RerrHeader.removeUnDestination, hlist]
        rfl
    | cons un rest =>
      have hremove : h.removeUnDestination =
          some (un, { h with unreachableDstSeqNo := h.unreachableDstSeqNo.erase un.1 }) := by
        rw [RerrHeader.removeUnDestination, hlist]
        rfl
      have hround : collectRound d (h, m) = some ({ h with unreachableDstSeqNo := h.unreachableDstSeqNo.erase un.1 },
          if (lookupL un.1 d.toList).isSome then m.insertNew un.1 un.2 else m) := by
        show h.removeUnDestination.map _ = _
        rw [hremove]
        exact congrArg (fun n => some (({ h with unreachableDstSeqNo := h.unreachableDstSeqNo.erase un.1 } : RerrHeader), n))
          (foldl_insert d.toList un m)
      have htail := h.unreachableDstSeqNo.toList_erase_head hlist
      rw [collectUnreachable, whileLoop_of_true (by rw [hremove]; rfl) hround]
      rw [hlist, List.length_cons] at hfuel
      refine (ih (by rw [htail]; exact Nat.lt_of_succ_lt_succ hfuel)).trans ?_
      refine congrArg (fun n => some (({ h with unreachableDstSeqNo := OrdMap.empty } : RerrHeader), n)) ?_
      simp only [OrdMap.filter, htail, hlist, List.filter_cons]
      by_cases hin : (lookupL un.1 d.toList).isSome
      · rw [if_pos hin, if_pos (show (d.find? un.1).isSome = true from hin)]
        rfl
      · rw [if_neg hin, if_neg (show ¬ (d.find? un.1).isSome = true from hin)]

/-! ## The broken routes -/

/-- The messages list the unreachable destinations and are read back, and no route to one of these is left valid. -/
structure Reported (unreachable : Ipv4Address → UInt32 → Prop) (out : RoutingTable × List RerrMessage) : Prop where
  readBack : ∀ m ∈ out.2, RerrHeader.deserialize m.packet = some (m.header, [])
  listed : ∀ dst seqNo, (∃ m ∈ out.2, m.header.unreachableDstSeqNo.find? dst = some seqNo) ↔ unreachable dst seqNo
  invalidated : ∀ dst seqNo rt, unreachable dst seqNo → out.1.find? dst = some rt → rt.flag ≠ .VALID

def brokenDestinations (now : Time) (t : RoutingTable) (nextHop : Ipv4Address) : OrdMap Ipv4Address UInt32 :=
  (t.purge now).ipv4AddressEntry.filterMap fun dst rt => if dst = nextHop ∨ rt.getNextHop = nextHop then some rt.seqNo else none

theorem Filling.fill_reported {now : Time} {s : Filling} {fuel : ℕ} {unreachable : OrdMap Ipv4Address UInt32} (hfuel : s.rest.length < fuel)
    (hle : s.listed.toList.length ≤ 255) (hpurged : s.routingTable.purge now = s.routingTable) (hsent : s.sent = [])
    (hsub : ∀ dst seqNo, s.listed.find? dst = some seqNo → (unreachable.find? dst).isSome = true) :
    ∃ s', fill now fuel s = some s' ∧ Reported (fun dst seqNo => s.listed.find? dst = some seqNo)
      (s'.routingTable.invalidateRoutesWithDst now unreachable, s'.messages) := by
  obtain ⟨precursors, hfill⟩ := fill_spec hfuel hle hpurged
  refine ⟨_, hfill, ?_⟩
  obtain ⟨hread, hlist⟩ := messages_spec (s := { s with rest := [], precursors, rerrHeader :=
    { s.rerrHeader with unreachableDstSeqNo := s.listed } }) hsent hle
  exact ⟨hread, hlist, fun dst seqNo rt hdst hfind =>
    RoutingTable.flag_of_invalidateRoutesWithDst _ now (hsub dst seqNo hdst) hfind⟩

/-- `SendRerrWhenBreaksLinkToNextHop` ends and reports the next hop, with every destination routed through it. -/
def BrokenLinkReported (now : Time) (t : RoutingTable) (nextHop : Ipv4Address) : Prop :=
  ∃ fuel out, sendRerrWhenBreaksLinkToNextHop fuel now t nextHop = some out ∧
    Reported (fun dst seqNo => (brokenDestinations now t nextHop).find? dst = some seqNo) out ∧
    ∃ m ∈ out.2, (m.header.unreachableDstSeqNo.find? nextHop).isSome = true

/-- `RecvError` ends and reports the destinations of the message that are routed through its sender. -/
def ReceivedErrorReported (now : Time) (t : RoutingTable) (p : List UInt8) (src : Ipv4Address) : Prop :=
  ∀ h rest, RerrHeader.deserialize p = some (h, rest) →
    ∃ fuel out, recvError fuel now t p src = some out ∧
      Reported (fun dst seqNo => h.unreachableDstSeqNo.find? dst = some seqNo ∧
        ∃ rt, (t.purge now).find? dst = some rt ∧ rt.getNextHop = src) out

variable {now : Time} {t : RoutingTable} {nextHop src : Ipv4Address} {rt : RoutingTableEntry} {p : List UInt8}

def brokenLink (now : Time) (t : RoutingTable) (nextHop : Ipv4Address) (rt : RoutingTableEntry) : Filling where
  rest := (t.getListOfDestinationWithNextHop now nextHop).2.toList
  rerrHeader := { unreachableDstSeqNo := OrdMap.empty.insertNew nextHop rt.seqNo }
  precursors := rt.getPrecursors []
  routingTable := t.purge now
  sent := []

theorem getListOfDestinationWithNextHop_purge :
    (t.purge now).getListOfDestinationWithNextHop now nextHop = t.getListOfDestinationWithNextHop now nextHop := by
  rw [RoutingTable.getListOfDestinationWithNextHop, RoutingTable.getListOfDestinationWithNextHop, RoutingTable.purge_purge]

theorem sendRerr_of_entry (hfind : (t.purge now).find? nextHop = some rt) (fuel : ℕ) :
    sendRerrWhenBreaksLinkToNextHop fuel now t nextHop = (Filling.fill now fuel (brokenLink now t nextHop rt)).map fun s =>
      (s.routingTable.invalidateRoutesWithDst now ((t.getListOfDestinationWithNextHop now nextHop).2.insertNew nextHop rt.seqNo),
        s.messages) := by
  have hadd : ({} : RerrHeader).addUnDestination nextHop rt.seqNo =
      some (true, { unreachableDstSeqNo := OrdMap.empty.insertNew nextHop rt.seqNo }) :=
    RerrHeader.addUnDestination_of_lt (Or.inr (by decide))
  rw [sendRerrWhenBreaksLinkToNextHop, RoutingTable.lookupRoute, hfind]
  simp only [hadd, Option.bind_some, getListOfDestinationWithNextHop_purge]
  rfl

theorem find?_brokenDestinations (dst : Ipv4Address) : (brokenDestinations now t nextHop).find? dst =
    ((t.purge now).find? dst).bind fun rt => if dst = nextHop ∨ rt.getNextHop = nextHop then some rt.seqNo else none :=
  (t.purge now).ipv4AddressEntry.find?_filterMap _ dst

theorem listed_brokenLink (hfind : (t.purge now).find? nextHop = some rt) :
    (brokenLink now t nextHop rt).listed = brokenDestinations now t nextHop := by
  refine OrdMap.ext_find? fun dst => ?_
  have hrouted : lookupL dst (t.getListOfDestinationWithNextHop now nextHop).2.toList = _ :=
    t.find?_getListOfDestinationWithNextHop now nextHop dst
  rw [find?_brokenDestinations, Filling.listed, OrdMap.find?_insertAll, brokenLink, hrouted, OrdMap.find?_insertNew, OrdMap.find?_empty, Option.none_or]
  by_cases hdst : nextHop = dst
  · subst hdst
    rw [hfind]
    simp
  · simp only [hdst, if_false, Option.none_or, Ne.symm hdst, false_or]

/-- **A broken link is reported** just when there is an entry for the next hop and at most 255 destinations to report. -/
theorem brokenLinkReported_iff : BrokenLinkReported now t nextHop ↔
    ((t.purge now).find? nextHop).isSome = true ∧ (brokenDestinations now t nextHop).toList.length ≤ 255 := by
  cases hfind : (t.purge now).find? nextHop with
  | none =>
    refine iff_of_false ?_ fun h => Bool.false_ne_true h.1
    rintro ⟨fuel, out, hrun, -, m, hm, -⟩
    rw [sendRerrWhenBreaksLinkToNextHop, RoutingTable.lookupRoute, hfind] at hrun
    obtain rfl := Option.some.inj hrun
    exact List.not_mem_nil hm
  | some rt =>
    have hlisted := listed_brokenLink hfind
    have hone : (brokenLink now t nextHop rt).rerrHeader.unreachableDstSeqNo.toList.length ≤ 255 := by
      show 1 ≤ 255
      decide
    constructor
    · rintro ⟨fuel, out, hrun, -⟩
      rw [sendRerr_of_entry hfind, Option.map_eq_some_iff] at hrun
      obtain ⟨s, hfill, -⟩ := hrun
      rw [← hlisted]
      exact ⟨rfl, Filling.length_of_fill hone hfill⟩
    · rintro ⟨-, hle⟩
      rw [← hlisted] at hle
      have hsub : ∀ dst seqNo, (brokenLink now t nextHop rt).listed.find? dst = some seqNo →
          (((t.getListOfDestinationWithNextHop now nextHop).2.insertNew nextHop rt.seqNo).find? dst).isSome = true := by
        intro dst seqNo hdst
        have hsome := congrArg Option.isSome hdst
        rw [Filling.listed, OrdMap.find?_insertAll, Option.isSome_or, brokenLink, OrdMap.find?_insertNew, OrdMap.find?_empty,
          Option.none_or] at hsome
        rw [OrdMap.find?_insertNew, Option.isSome_or, Bool.or_comm]
        exact hsome
      obtain ⟨s, hfill, hreported⟩ := Filling.fill_reported (Nat.lt_succ_self _) hle (t.purge_purge now) rfl hsub
      rw [hlisted] at hreported
      have hself : (brokenDestinations now t nextHop).find? nextHop = some rt.seqNo := by
        rw [find?_brokenDestinations, hfind, Option.bind_some, if_pos (Or.inl rfl)]
      refine ⟨_, _, by rw [sendRerr_of_entry hfind, hfill]; rfl, hreported, ?_⟩
      obtain ⟨m, hm, hseqNo⟩ := (hreported.listed nextHop rt.seqNo).mpr hself
      exact ⟨m, hm, by rw [hseqNo]; rfl⟩

/-- **A received RERR is reported.** -/
theorem recvError_reported : ReceivedErrorReported now t p src := by
  intro h rest hp
  set d := (t.getListOfDestinationWithNextHop now src).2 with hd
  set unreachable := h.unreachableDstSeqNo.filter fun dst => (d.find? dst).isSome with hunreachable
  have hle : unreachable.toList.length ≤ h.unreachableDstSeqNo.toList.length := List.length_filter_le _ _
  have hcollect := collectUnreachable_spec d (m := OrdMap.empty) (Nat.lt_succ_self h.unreachableDstSeqNo.toList.length)
  rw [OrdMap.insertAll_toList] at hcollect
  -- the loop fills the emptied header
  let s : Filling := { rest := unreachable.toList, rerrHeader := { h with unreachableDstSeqNo := OrdMap.empty }, precursors := [],
                       routingTable := t.purge now, sent := [] }
  have hlisted : s.listed = unreachable := unreachable.insertAll_toList
  have hsub : ∀ dst seqNo, s.listed.find? dst = some seqNo → (unreachable.find? dst).isSome = true := by
    intro dst seqNo hdst
    rw [← hlisted, hdst]
    rfl
  obtain ⟨s', hfill, hreported⟩ := Filling.fill_reported (show s.rest.length < _ from Nat.lt_succ_of_le hle)
    (by rw [hlisted]; exact hle.trans (RerrHeader.length_of_deserialize hp)) (t.purge_purge now) rfl hsub
  refine ⟨h.unreachableDstSeqNo.toList.length + 1, (s'.routingTable.invalidateRoutesWithDst now unreachable, s'.messages), ?_, ?_⟩
  · rw [recvError, hp]
    show (collectUnreachable d _ _).bind _ = _
    rw [hcollect]
    show (Filling.fill now _ s).map _ = _
    rw [hfill]
    rfl
  · rw [hlisted] at hreported
    have hiff : ∀ dst seqNo, unreachable.find? dst = some seqNo ↔
        h.unreachableDstSeqNo.find? dst = some seqNo ∧ ∃ rt, (t.purge now).find? dst = some rt ∧ rt.getNextHop = src := by
      intro dst seqNo
      rw [hunreachable, OrdMap.find?_filter, hd, RoutingTable.find?_getListOfDestinationWithNextHop]
      cases (t.purge now).find? dst with
      | none => simp
      | some rt => by_cases hsrc : rt.getNextHop = src <;> simp [hsrc]
    exact ⟨hreported.readBack, fun dst seqNo => (hreported.listed dst seqNo).trans (hiff dst seqNo),
      fun dst seqNo rt hdst => hreported.invalidated dst seqNo rt ((hiff dst seqNo).mpr hdst)⟩

/-- **The broken routes are reported** in both ways just when the broken link has an entry and at most 255 destinations. -/
theorem reportsBrokenRoutes_iff (now : Time) (t : RoutingTable) (nextHop src : Ipv4Address) (p : List UInt8) :
    (BrokenLinkReported now t nextHop ∧ ReceivedErrorReported now t p src) ↔
      ((t.purge now).find? nextHop).isSome = true ∧ (brokenDestinations now t nextHop).toList.length ≤ 255 := by
  rw [← brokenLinkReported_iff]
  exact and_iff_left recvError_reported

def crowded : RoutingTable where
  ipv4AddressEntry.toList := (List.range 256).map fun i =>
    (UInt32.ofNat (0x0a000001 + i), .new 0 (some 1) (UInt32.ofNat (0x0a000001 + i)) true 1 0x0a000064 2 0x0a000001 (milliSeconds 3000))
  ipv4AddressEntry.sorted := by
    refine List.pairwise_map.mpr (List.pairwise_lt_range.imp_of_mem fun {i j} hi hj hij => ?_)
    rw [List.mem_range] at hi hj
    rw [UInt32.lt_iff_toNat_lt, UInt32.toNat_ofNat', UInt32.toNat_ofNat']
    omega
  badLinkLifetime := milliSeconds 15000
  badLinkLifetime_nonneg := by decide

/-- A link with 256 destinations behind it breaks, and the assertion fails. -/
theorem not_reportsBrokenRoutes :
    ¬ ∀ now t nextHop src p, BrokenLinkReported now t nextHop ∧ ReceivedErrorReported now t p src := by
  intro h
  have hle := (brokenLinkReported_iff.mp (h 0 crowded 0x0a000001 0 []).1).2
  have hlen : (brokenDestinations 0 crowded 0x0a000001).toList.length = 256 := by decide +kernel
  rw [hlen] at hle
  exact absurd hle (by decide)

end Ns3Ndn.Aodv
