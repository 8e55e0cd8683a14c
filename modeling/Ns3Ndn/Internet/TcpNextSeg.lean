import Ns3Ndn.Internet.TcpRxWindow
import Ns3Ndn.Internet.TcpTxStream

/-!
# The next segment to send

`TcpTxBuffer::NextSeg` looks for a lost segment, then for data that was not sent yet, then for a segment to send again, and
`TcpSocketBase::SendPendingData` sends what it returns. When as many bytes are sent as the receiver's window has, the second
rule returns no bytes at all. The number that is saved for the third rule is taken for none when it is zero.

* **`run_nextSeg`**: in every state that is reached it is returned just when the condition holds.
-/

namespace Ns3Ndn.Internet

open Network SequenceNumber32

def TcpTxItem.pending (item : TcpTxItem) : Bool := ! item.retrans && ! item.sacked

/-- `TcpSocketState::TcpCongState_t`. -/
inductive TcpCongState where
  | caOpen
  | caDisorder
  | caCwr
  | caRecovery
  | caLoss
  deriving DecidableEq

namespace TcpTxBuffer

/-- The loop of `NextSeg`: a lost segment, and the number that is saved for the third rule. -/
def nextSegLoop (isRecovery : Bool) : SequenceNumber32 → SequenceNumber32 → Bool → List TcpTxItem →
    Option SequenceNumber32 × SequenceNumber32 × Bool
  | _, seqPerRule3, isSeqPerRule3Valid, [] => (none, seqPerRule3, isSeqPerRule3Valid)
  | beginOfCurrentPkt, seqPerRule3, isSeqPerRule3Valid, item :: rest =>
    if ! item.retrans && ! item.sacked then
      if item.lost then (some beginOfCurrentPkt, seqPerRule3, isSeqPerRule3Valid)
      else if seqPerRule3 == 0 && isRecovery then
        nextSegLoop isRecovery (beginOfCurrentPkt + item.size) beginOfCurrentPkt true rest
      else nextSegLoop isRecovery (beginOfCurrentPkt + item.size) seqPerRule3 isSeqPerRule3Valid rest
    else nextSegLoop isRecovery (beginOfCurrentPkt + item.size) seqPerRule3 isSeqPerRule3Valid rest

variable (s : TcpTxBuffer)

/-- `NextSeg`: `seq` and `seqHigh`, for `m_segmentSize` and the receiver's window. -/
def nextSeg (segmentSize rWnd : UInt32) (isRecovery : Bool) : Option (SequenceNumber32 × SequenceNumber32) :=
  let r := nextSegLoop isRecovery s.firstByteSeq 0 false s.sentList
  match r.1 with
  | some seq => some (seq, seq + segmentSize)
  | none =>
    if s.sizeFromSequence (s.firstByteSeq + s.sentSize) > 0 then
      if s.sentSize ≤ rWnd then
        some (s.firstByteSeq + s.sentSize, s.firstByteSeq + s.sentSize + min segmentSize (rWnd - s.sentSize))
      else none
    else if r.2.2 then some (r.2.1, r.2.1 + segmentSize)
    else none

end TcpTxBuffer

/-- What `SendPendingData` reads of the socket. -/
structure SendState where
  state : TcpState := .established
  congState : TcpCongState := .caOpen
  sackEnabled : Bool := true
  noDelay : Bool := false
  pacingEnabled : Bool := false
  pacingTimerRunning : Bool := false
  segmentSize : UInt32
  rWnd : UInt32
  cWnd : UInt32
  highTxMark : SequenceNumber32

namespace SendState

variable (c : SendState) (s : TcpTxBuffer)

def window : UInt32 := min c.rWnd c.cWnd

def availableWindow : Option UInt32 :=
  s.bytesInFlight.map fun inflight => if inflight > c.window then 0 else c.window - inflight

def unAckDataCount : UInt32 := (sub c.highTxMark s.firstByteSeq).toUInt32

def enableRule3 : Bool := c.sackEnabled && c.congState == .caRecovery

/-- A turn of the loop of `SendPendingData`: the number and the bytes that `SendDataPacket` is asked for. The application
can add data before, which changes neither. -/
def sendPendingTurn (availableWindow : UInt32) : Option (SequenceNumber32 × UInt32) :=
  if availableWindow == 0 then none
  else if c.pacingEnabled && c.pacingTimerRunning then none
  else if c.congState = .caOpen ∧ c.state = .finWait1 then none
  else
    (s.nextSeg c.segmentSize c.rWnd c.enableRule3).bind fun r =>
      let availableData := s.sizeFromSequence r.1
      if availableWindow < c.segmentSize ∧ availableData > availableWindow then none
      else if ¬ c.noDelay ∧ c.unAckDataCount s > 0 ∧ availableData < c.segmentSize then none
      else some (r.1, min (min availableWindow c.segmentSize) (sub r.2 r.1).toUInt32)

end SendState

namespace TcpTxBuffer

def lostPending (item : TcpTxItem) : Bool := item.pending && item.lost

/-- **What is to be returned**: bytes of the buffer, of the lowest lost segment, else those that were not sent if the window
has them, else those of the lowest segment that can be sent again. -/
structure NextSegSpec (s : TcpTxBuffer) (rWnd : UInt32) (seq seqHigh : SequenceNumber32) : Prop where
  head : le s.firstByteSeq seq = true
  nonempty : lt seq seqHigh = true
  tail : lt seq s.tailSequence = true
  lost : ∀ item, s.sentList.find? lostPending = some item → seq = item.startSeq
  unsent : s.sentList.find? lostPending = none →
    s.sizeFromSequence (s.firstByteSeq + s.sentSize) > 0 ∧ seqHigh - s.firstByteSeq ≤ rWnd →
      seq = s.firstByteSeq + s.sentSize
  rule3 : s.sentList.find? lostPending = none →
    ¬ (s.sizeFromSequence (s.firstByteSeq + s.sentSize) > 0 ∧ seqHigh - s.firstByteSeq ≤ rWnd) →
      ∃ item, s.sentList.find? TcpTxItem.pending = some item ∧ seq = item.startSeq

/-- What is returned is right, and `SendDataPacket` is not asked for zero bytes. -/
def NextSegRight (s : TcpTxBuffer) (segmentSize rWnd : UInt32) (isRecovery : Bool) : Prop :=
  (∀ seq seqHigh, s.nextSeg segmentSize rWnd isRecovery = some (seq, seqHigh) → NextSegSpec s rWnd seq seqHigh) ∧
    ∀ c : SendState, c.segmentSize = segmentSize → c.rWnd = rWnd → c.enableRule3 = isRecovery →
      ∀ w next n, c.sendPendingTurn s w = some (next, n) → n ≠ 0

/-- **The condition**: without a lost segment, what was sent is not just the window while there is data to send, and the
first segment for the third rule is not at number zero with another one behind it. -/
def nextSegFits (s : TcpTxBuffer) (rWnd : UInt32) (isRecovery : Bool) : Bool :=
  s.sentList.any lostPending ||
    if s.sizeFromSequence (s.firstByteSeq + s.sentSize) > 0 then s.sentSize != rWnd
    else ! isRecovery ||
      match s.sentList.filter TcpTxItem.pending with
      | item :: _ :: _ => item.startSeq != 0
      | _ => true

/-! ## The loop -/

section Loop

variable {isn seqPerRule3 : SequenceNumber32} {isRecovery valid : Bool} {i : ℕ} {l : List TcpTxItem}

theorem begin_add_size (isn : SequenceNumber32) (i : ℕ) (item : TcpTxItem) :
    seqAt isn i + item.size = seqAt isn (i + item.packet.length) := seqAt_add isn i _

theorem nextSegLoop_fst (hl : Starts isn i l) :
    (nextSegLoop isRecovery (seqAt isn i) seqPerRule3 valid l).1 = (l.find? lostPending).map TcpTxItem.startSeq := by
  induction l generalizing i seqPerRule3 valid with
  | nil => rfl
  | cons item rest ih =>
    obtain ⟨hstart, hrest⟩ := hl
    rw [nextSegLoop, begin_add_size, List.find?_cons, lostPending, TcpTxItem.pending]
    by_cases hpending : (! item.retrans && ! item.sacked) = true
    · rw [if_pos hpending, hpending, Bool.true_and]
      by_cases hlost : item.lost = true
      · rw [if_pos hlost, hlost, Option.map_some, hstart]
      · rw [if_neg hlost, Bool.eq_false_of_not_eq_true hlost]
        split_ifs <;> exact ih hrest
    · rw [if_neg hpending, Bool.eq_false_of_not_eq_true hpending, Bool.false_and]
      exact ih hrest

theorem nextSegLoop_snd_of_kept (hkept : (seqPerRule3 == 0 && isRecovery) = false) (begin : SequenceNumber32) :
    (nextSegLoop isRecovery begin seqPerRule3 valid l).2 = (seqPerRule3, valid) := by
  induction l generalizing begin with
  | nil => rfl
  | cons item rest ih =>
    rw [nextSegLoop, hkept, if_neg Bool.false_ne_true]
    split_ifs
    · rfl
    · exact ih _
    · exact ih _

theorem pairwise_startSeq (hl : Starts isn i l) (hne : ∀ item ∈ l, item.packet ≠ []) (hbytes : bytes l < 2 ^ 31) :
    l.Pairwise fun item second => item.startSeq ≠ second.startSeq := by
  induction l generalizing i with
  | nil => exact List.Pairwise.nil
  | cons item rest ih =>
    obtain ⟨hstart, hrest⟩ := hl
    have hpos := List.length_pos_iff.mpr (hne item List.mem_cons_self)
    rw [bytes_cons] at hbytes
    refine List.pairwise_cons.mpr ⟨fun second hsecond => ?_,
      ih hrest (fun u hu => hne u (List.mem_cons_of_mem item hu)) (by omega)⟩
    obtain ⟨k, hk, heq⟩ := starts_mem hrest hsecond
    rw [hstart, heq, Ne, seqAt_inj (by omega) (by omega)]
    omega

/-- **What is saved**: the first segment to be sent again, or the second one when the first is at number zero. -/
theorem nextSegLoop_snd (hl : Starts isn i l) (hne : ∀ item ∈ l, item.packet ≠ []) (hbytes : bytes l < 2 ^ 31)
    (hnone : l.find? lostPending = none) :
    (nextSegLoop true (seqAt isn i) 0 valid l).2 =
      match l.filter TcpTxItem.pending with
      | [] => (0, valid)
      | item :: rest =>
        if item.startSeq = 0 then
          match rest with
          | [] => (0, true)
          | second :: _ => (second.startSeq, true)
        else (item.startSeq, true) := by
  induction l generalizing i valid with
  | nil => rfl
  | cons item rest ih =>
    obtain ⟨hstart, hrest⟩ := hl
    have hne' : ∀ u ∈ rest, u.packet ≠ [] := fun u hu => hne u (List.mem_cons_of_mem item hu)
    obtain ⟨hdiff, -⟩ := List.pairwise_cons.mp (pairwise_startSeq (l := item :: rest) ⟨hstart, hrest⟩ hne hbytes)
    rw [bytes_cons] at hbytes
    have hall := List.find?_eq_none.mp hnone
    have hnot := hall item List.mem_cons_self
    have hnone' : rest.find? lostPending = none := List.find?_eq_none.mpr fun u hu => hall u (List.mem_cons_of_mem item hu)
    have ih' := fun v => @ih v _ hrest hne' (by omega) hnone'
    rw [nextSegLoop, begin_add_size, List.filter_cons, TcpTxItem.pending]
    by_cases hpending : (! item.retrans && ! item.sacked) = true
    · have hlost : ¬ item.lost = true := fun hlost => hnot (by rw [lostPending, TcpTxItem.pending, hpending, hlost]; rfl)
      rw [if_pos hpending, if_neg hlost, if_pos (by rfl), if_pos hpending, ← hstart]
      dsimp only
      by_cases hzero : item.startSeq = 0
      · rw [if_pos hzero, hzero, ih' true]
        cases hfilter : rest.filter TcpTxItem.pending with
        | nil => rfl
        | cons second after =>
          have hsecond : second ∈ rest := (List.mem_filter.mp (hfilter ▸ List.mem_cons_self)).1
          exact if_neg fun hzero' => hdiff second hsecond (hzero.trans hzero'.symm)
      · rw [if_neg hzero]
        exact nextSegLoop_snd_of_kept (by rw [Bool.and_true, beq_eq_false_iff_ne]; exact hzero) _
    · rw [if_neg hpending, if_neg hpending]
      exact ih' valid

end Loop

/-! ## What is returned -/

section Spec

variable {isn : SequenceNumber32} {stream : List UInt8} {base : ℕ} {s : TcpTxBuffer} {segmentSize rWnd : UInt32}
  {isRecovery : Bool} {seq seqHigh : SequenceNumber32} {item : TcpTxItem}

/-- `SendDataPacket` is asked for bytes when there are some. -/
theorem nextSegRight_iff (hseg : segmentSize ≠ 0) : NextSegRight s segmentSize rWnd isRecovery ↔
    ∀ seq seqHigh, s.nextSeg segmentSize rWnd isRecovery = some (seq, seqHigh) → NextSegSpec s rWnd seq seqHigh := by
  refine and_iff_left_of_imp fun hspec c hc hc' hrule w next n hturn => ?_
  have hmin : ∀ {a b : UInt32}, a ≠ 0 → b ≠ 0 → min a b ≠ 0 := fun {a b} ha hb => by
    show (if a ≤ b then a else b) ≠ 0
    split_ifs
    · exact ha
    · exact hb
  rw [SendState.sendPendingTurn] at hturn
  split_ifs at hturn with hwindow
  obtain ⟨⟨seq, seqHigh⟩, hnext, hturn⟩ := Option.bind_eq_some_iff.mp hturn
  dsimp only at hturn
  split_ifs at hturn
  obtain ⟨-, rfl⟩ := Prod.mk.inj (Option.some.inj hturn)
  rw [hc, hc', hrule] at hnext
  have hlt := (hspec seq seqHigh hnext).nonempty
  refine hmin (hmin (fun h => hwindow (beq_iff_eq.mpr h)) (hc ▸ hseg)) fun hzero => ?_
  rw [toUInt32_sub] at hzero
  have heq : seqHigh = seq := by rw [← UInt32.sub_add_cancel seqHigh seq, hzero, UInt32.zero_add]
  rw [lt, heq, bne_self_eq_false, Bool.and_false] at hlt
  exact Bool.false_ne_true hlt

namespace Streams

theorem sentEnd (h : Streams isn stream base s) : s.firstByteSeq + s.sentSize = seqAt isn (base + bytes s.sentList) := by
  rw [h.first, h.sentSize, seqAt_add]

theorem unsent_eq (h : Streams isn stream base s) :
    s.sizeFromSequence (s.firstByteSeq + s.sentSize) = UInt32.ofNat (bytes s.appList) := by
  rw [h.sentEnd, h.sizeFromSequence_eq (Nat.le_add_right _ _), Nat.add_sub_cancel_left]

theorem tail_eq (h : Streams isn stream base s) :
    s.tailSequence = seqAt isn (base + (bytes s.sentList + bytes s.appList)) := by
  rw [tailSequence, h.first, h.size, seqAt_add]

theorem lt_add_segment (isn : SequenceNumber32) (i : ℕ) {n : UInt32} (hn : n ≠ 0) (hn' : n.toNat < 2 ^ 31) :
    lt (seqAt isn i) (seqAt isn i + n) = true := by
  have hpos : n.toNat ≠ 0 := fun h => hn (UInt32.toNat_inj.mp h)
  have hend : seqAt isn i + n = seqAt isn (i + n.toNat) := by rw [← seqAt_add, UInt32.ofNat_toNat]
  rw [hend, lt_seqAt (by omega) (by omega), decide_eq_true_eq]
  omega

variable (h : Streams isn stream base s)

include h

theorem place_of_mem (hitem : item ∈ s.sentList) (hseg : segmentSize ≠ 0) (hseg' : segmentSize.toNat < 2 ^ 31) :
    le s.firstByteSeq item.startSeq = true ∧
      lt item.startSeq (item.startSeq + segmentSize) = true ∧ lt item.startSeq s.tailSequence = true := by
  have hbound := h.bound
  have hpos := List.length_pos_iff.mpr (h.nonempty item (List.mem_append_left _ hitem))
  obtain ⟨k, hk, heq⟩ := starts_mem h.starts hitem
  rw [heq, h.first, h.tail_eq, le_seqAt (by omega) (by omega), lt_seqAt (i := base + k) (by omega) (by omega)]
  exact ⟨decide_eq_true (Nat.le_add_right _ _), lt_add_segment isn _ hseg hseg', decide_eq_true (by omega)⟩

theorem nextSeg_of_lost (hfind : s.sentList.find? lostPending = some item) :
    s.nextSeg segmentSize rWnd isRecovery = some (item.startSeq, item.startSeq + segmentSize) := by
  have hfst : (nextSegLoop isRecovery (seqAt isn base) 0 false s.sentList).1 = _ := nextSegLoop_fst h.starts
  rw [nextSeg, h.first, hfst, hfind]
  rfl

theorem nextSeg_of_none (hfind : s.sentList.find? lostPending = none) :
    s.nextSeg segmentSize rWnd isRecovery =
      if s.sizeFromSequence (s.firstByteSeq + s.sentSize) > 0 then
        if s.sentSize ≤ rWnd then
          some (s.firstByteSeq + s.sentSize, s.firstByteSeq + s.sentSize + min segmentSize (rWnd - s.sentSize))
        else none
      else if (nextSegLoop isRecovery s.firstByteSeq 0 false s.sentList).2.2 then
        some ((nextSegLoop isRecovery s.firstByteSeq 0 false s.sentList).2.1,
          (nextSegLoop isRecovery s.firstByteSeq 0 false s.sentList).2.1 + segmentSize)
      else none := by
  have hfst : (nextSegLoop isRecovery (seqAt isn base) 0 false s.sentList).1 = _ := nextSegLoop_fst h.starts
  rw [hfind, Option.map_none, ← h.first] at hfst
  rw [nextSeg, hfst]

theorem spec_of_lost (hseg : segmentSize ≠ 0) (hseg' : segmentSize.toNat < 2 ^ 31)
    (hfind : s.sentList.find? lostPending = some item) : NextSegSpec s rWnd item.startSeq (item.startSeq + segmentSize) := by
  obtain ⟨hhead, hlt, htail⟩ := h.place_of_mem (List.mem_of_find?_eq_some hfind) hseg hseg'
  refine ⟨hhead, hlt, htail, fun u hu => ?_, fun hnone => ?_, fun hnone => ?_⟩
  · rw [Option.some.inj (hfind.symm.trans hu)]
  · exact absurd (hfind.symm.trans hnone) (Option.some_ne_none item)
  · exact absurd (hfind.symm.trans hnone) (Option.some_ne_none item)

theorem spec_of_unsent (hseg : segmentSize ≠ 0) (hseg' : segmentSize.toNat < 2 ^ 31)
    (hfind : s.sentList.find? lostPending = none) (hunsent : s.sizeFromSequence (s.firstByteSeq + s.sentSize) > 0)
    (hwindow : s.sentSize < rWnd) : NextSegSpec s rWnd (s.firstByteSeq + s.sentSize)
      (s.firstByteSeq + s.sentSize + min segmentSize (rWnd - s.sentSize)) := by
  have hbound := h.bound
  have hwindow' := UInt32.lt_iff_toNat_lt.mp hwindow
  have hsub : (rWnd - s.sentSize).toNat = rWnd.toNat - s.sentSize.toNat := UInt32.toNat_sub_of_le _ _ (UInt32.le_of_lt hwindow)
  have hlimit := rWnd.toNat_lt
  obtain ⟨m, hm⟩ : ∃ m, m = min segmentSize (rWnd - s.sentSize) := ⟨_, rfl⟩
  have hmin : m.toNat = min segmentSize.toNat (rWnd.toNat - s.sentSize.toNat) := by
    rw [hm, ← hsub]
    show (if segmentSize ≤ rWnd - s.sentSize then segmentSize else _).toNat = _
    split_ifs with hle
    · exact (min_eq_left (UInt32.le_iff_toNat_le.mp hle)).symm
    · exact (min_eq_right (not_le.mp fun h => hle (UInt32.le_iff_toNat_le.mpr h)).le).symm
  have hpos : segmentSize.toNat ≠ 0 := fun h => hseg (UInt32.toNat_inj.mp h)
  have hne : m ≠ 0 := fun h => by
    have hzero : m.toNat = 0 := by rw [h]; rfl
    omega
  have hdata : 0 < bytes s.appList := by
    have hdata := UInt32.lt_iff_toNat_lt.mp hunsent
    rw [h.unsent_eq, UInt32.toNat_ofNat_of_lt' (show _ < 2 ^ 32 by omega)] at hdata
    exact hdata
  rw [← hm]
  refine ⟨?_, ?_, ?_, fun u hu => ?_, fun _ _ => rfl, fun _ hnot => absurd ⟨hunsent, ?_⟩ hnot⟩
  · rw [h.sentEnd, h.first, le_seqAt (by omega) (by omega), decide_eq_true (Nat.le_add_right _ _)]
  · rw [h.sentEnd]
    exact lt_add_segment isn _ hne (by omega)
  · rw [h.sentEnd, h.tail_eq, lt_seqAt (by omega) (by omega), decide_eq_true_eq]
    omega
  · exact absurd (hfind.symm.trans hu) (Option.some_ne_none u).symm
  · rw [UInt32.add_assoc, UInt32.add_comm, UInt32.add_sub_cancel, UInt32.le_iff_toNat_le, UInt32.toNat_add]
    omega

theorem spec_of_pending (hseg : segmentSize ≠ 0) (hseg' : segmentSize.toNat < 2 ^ 31)
    (hfind : s.sentList.find? lostPending = none) (hunsent : ¬ s.sizeFromSequence (s.firstByteSeq + s.sentSize) > 0)
    (hpending : s.sentList.find? TcpTxItem.pending = some item) :
    NextSegSpec s rWnd item.startSeq (item.startSeq + segmentSize) := by
  obtain ⟨hhead, hlt, htail⟩ := h.place_of_mem (List.mem_of_find?_eq_some hpending) hseg hseg'
  refine ⟨hhead, hlt, htail, fun u hu => ?_, fun _ hdata => ?_, fun _ _ => ⟨item, hpending, rfl⟩⟩
  · exact absurd (hfind.symm.trans hu) (Option.some_ne_none u).symm
  · exact absurd hdata.1 hunsent

/-- **The third rule**: the first segment is returned, unless it is at number zero with another one behind it. -/
theorem rule3_iff (hseg : segmentSize ≠ 0) (hseg' : segmentSize.toNat < 2 ^ 31) (hfind : s.sentList.find? lostPending = none)
    (hunsent : ¬ s.sizeFromSequence (s.firstByteSeq + s.sentSize) > 0) :
    (∀ seq seqHigh, s.nextSeg segmentSize rWnd true = some (seq, seqHigh) → NextSegSpec s rWnd seq seqHigh) ↔
      (match s.sentList.filter TcpTxItem.pending with
        | item :: _ :: _ => item.startSeq != 0
        | _ => true) = true := by
  have hbound := h.bound
  have hne : ∀ u ∈ s.sentList, u.packet ≠ [] := fun u hu => h.nonempty u (List.mem_append_left _ hu)
  have hsnd : (nextSegLoop true (seqAt isn base) 0 false s.sentList).2 = _ := nextSegLoop_snd h.starts hne (by omega) hfind
  have hhead : (s.sentList.filter TcpTxItem.pending).head? = s.sentList.find? TcpTxItem.pending := List.head?_filter
  have hgood : ∀ {u : TcpTxItem}, s.sentList.find? TcpTxItem.pending = some u →
      s.nextSeg segmentSize rWnd true = some (u.startSeq, u.startSeq + segmentSize) →
        ∀ seq seqHigh, s.nextSeg segmentSize rWnd true = some (seq, seqHigh) → NextSegSpec s rWnd seq seqHigh := by
    intro u hu hnext seq seqHigh hsome
    obtain ⟨rfl, rfl⟩ := Prod.mk.inj (Option.some.inj (hnext.symm.trans hsome))
    exact h.spec_of_pending hseg hseg' hfind hunsent hu
  have hnext : s.nextSeg segmentSize rWnd true = _ := h.nextSeg_of_none hfind
  rw [if_neg hunsent, h.first] at hnext
  cases hfilter : s.sentList.filter TcpTxItem.pending with
  | nil =>
    rw [hfilter] at hsnd
    rw [hsnd, if_neg Bool.false_ne_true] at hnext
    exact iff_of_true (fun seq seqHigh hsome => absurd (hnext.symm.trans hsome) (Option.some_ne_none _).symm) rfl
  | cons item rest =>
    rw [hfilter] at hsnd hhead
    cases rest with
    | nil =>
      have hfirst : (nextSegLoop true (seqAt isn base) 0 false s.sentList).2 = (item.startSeq, true) := by
        rw [hsnd]
        dsimp only
        split_ifs with hzero
        · rw [hzero]
        · rfl
      rw [hfirst, if_pos rfl] at hnext
      exact iff_of_true (hgood hhead.symm hnext) rfl
    | cons second after =>
      dsimp only at hsnd ⊢
      by_cases hzero : item.startSeq = 0
      · rw [if_pos hzero] at hsnd
        rw [hsnd, if_pos rfl] at hnext
        refine iff_of_false (fun hall => ?_) (by rw [hzero]; exact Bool.false_ne_true)
        obtain ⟨u, hu, heq⟩ := (hall _ _ hnext).rule3 hfind fun hdata => hunsent hdata.1
        obtain rfl := Option.some.inj (hhead.trans hu)
        have hdiff := (pairwise_startSeq h.starts hne (by omega)).sublist (hfilter ▸ List.filter_sublist)
        exact (List.pairwise_cons.mp hdiff).1 second List.mem_cons_self heq.symm
      · rw [if_neg hzero] at hsnd
        rw [hsnd, if_pos rfl] at hnext
        exact iff_of_true (hgood hhead.symm hnext) (bne_iff_ne.mpr hzero)

/-- **Just when the condition holds**. -/
theorem nextSegRight_iff_fits (hseg : segmentSize ≠ 0) (hseg' : segmentSize.toNat < 2 ^ 31) :
    NextSegRight s segmentSize rWnd isRecovery ↔ s.nextSegFits rWnd isRecovery = true := by
  have hnever : s.nextSeg segmentSize rWnd isRecovery = none →
      ∀ seq seqHigh, s.nextSeg segmentSize rWnd isRecovery = some (seq, seqHigh) → NextSegSpec s rWnd seq seqHigh :=
    fun hnone seq seqHigh hsome => absurd (hnone.symm.trans hsome) (Option.some_ne_none _).symm
  have honly : ∀ {a b : SequenceNumber32}, s.nextSeg segmentSize rWnd isRecovery = some (a, b) → NextSegSpec s rWnd a b →
      ∀ seq seqHigh, s.nextSeg segmentSize rWnd isRecovery = some (seq, seqHigh) → NextSegSpec s rWnd seq seqHigh := by
    intro a b hnext hspec seq seqHigh hsome
    obtain ⟨rfl, rfl⟩ := Prod.mk.inj (Option.some.inj (hnext.symm.trans hsome))
    exact hspec
  rw [nextSegRight_iff hseg, nextSegFits]
  cases hfind : s.sentList.find? lostPending with
  | some item =>
    have hany : s.sentList.any lostPending = true :=
      List.any_eq_true.mpr ⟨item, List.mem_of_find?_eq_some hfind, List.find?_some hfind⟩
    rw [hany, Bool.true_or]
    exact iff_of_true (honly (h.nextSeg_of_lost hfind) (h.spec_of_lost hseg hseg' hfind)) rfl
  | none =>
    have hany : s.sentList.any lostPending = false := List.any_eq_false.mpr (List.find?_eq_none.mp hfind)
    have hnext : s.nextSeg segmentSize rWnd isRecovery = _ := h.nextSeg_of_none hfind
    rw [hany, Bool.false_or]
    by_cases hunsent : s.sizeFromSequence (s.firstByteSeq + s.sentSize) > 0
    · rw [if_pos hunsent] at hnext ⊢
      rcases lt_trichotomy s.sentSize.toNat rWnd.toNat with hlt | heq | hgt
      · have hlt' : s.sentSize < rWnd := UInt32.lt_iff_toNat_lt.mpr hlt
        rw [if_pos (UInt32.le_of_lt hlt')] at hnext
        refine iff_of_true (honly hnext (h.spec_of_unsent hseg hseg' hfind hunsent hlt')) (bne_iff_ne.mpr ?_)
        exact fun heq => absurd (congrArg UInt32.toNat heq) hlt.ne
      · -- as many bytes were sent as the window has: none are returned
        obtain rfl := UInt32.toNat_inj.mp heq
        rw [if_pos (UInt32.le_refl _), UInt32.sub_self] at hnext
        have hzero : min segmentSize 0 = 0 := by
          show (if segmentSize ≤ 0 then segmentSize else 0) = 0
          split_ifs with hle
          · exact UInt32.toNat_inj.mp (Nat.le_zero.mp (UInt32.le_iff_toNat_le.mp hle))
          · rfl
        refine iff_of_false (fun hall => ?_) (by rw [bne_self_eq_false]; exact Bool.false_ne_true)
        have hlt := (hall _ _ hnext).nonempty
        rw [hzero, UInt32.add_zero, lt, bne_self_eq_false, Bool.and_false] at hlt
        exact Bool.false_ne_true hlt
      · rw [if_neg fun hle => absurd (UInt32.le_iff_toNat_le.mp hle) (not_le.mpr hgt)] at hnext
        exact iff_of_true (hnever hnext) (bne_iff_ne.mpr fun heq => absurd (congrArg UInt32.toNat heq) hgt.ne')
    · rw [if_neg hunsent]
      cases isRecovery with
      | false =>
        rw [if_neg hunsent, nextSegLoop_snd_of_kept (Bool.and_false _), if_neg Bool.false_ne_true] at hnext
        exact iff_of_true (hnever hnext) rfl
      | true =>
        rw [Bool.not_true, Bool.false_or]
        exact h.rule3_iff hseg hseg' hfind hunsent

end Streams

end Spec

/-- **The next segment**, in every state that is reached, for every window of the receiver: what `NextSeg` returns is right,
and no turn of `SendPendingData` asks for zero bytes, just when the condition holds. -/
theorem run_nextSeg (isn : SequenceNumber32) (maxBuffer dupAckThresh : UInt32) (sackEnabled : Bool) (calls : List TxCall)
    (s : TcpTxBuffer) (hcalls : TxCall.allowedFrom (start isn maxBuffer dupAckThresh sackEnabled) calls = true)
    (hs : (start isn maxBuffer dupAckThresh sackEnabled).runFrom calls = some s) (segmentSize rWnd : UInt32)
    (hseg : segmentSize ≠ 0) (hseg' : segmentSize.toNat < 2 ^ 31) (isRecovery : Bool) :
    NextSegRight s segmentSize rWnd isRecovery ↔ s.nextSegFits rWnd isRecovery = true := by
  have h := (Streams.start isn maxBuffer dupAckThresh sackEnabled).runFrom hcalls hs
  exact h.nextSegRight_iff_fits hseg hseg'

/-- One segment is sent, and the window has room for another one. -/
theorem run_nextSeg_unsent : ∃ s, (start 0xfffffffe 32768 3 true).runFrom [.add ⟨[1, 2, 3, 4], by decide⟩,
      .copyFromSequence 2 0xfffffffe] = some s ∧
    (NextSegRight s 2 4 false ↔ s.nextSegFits 4 false = true) ∧ s.nextSegFits 4 false = true := by
  have hsome : ((start 0xfffffffe 32768 3 true).runFrom [.add ⟨[1, 2, 3, 4], by decide⟩,
      .copyFromSequence 2 0xfffffffe]).any (fun s => s.nextSegFits 4 false) = true := by decide
  obtain ⟨s, hs, hfits⟩ := (Option.any_eq_true _ _).mp hsome
  exact ⟨s, hs, run_nextSeg 0xfffffffe 32768 3 true _ s (by decide) hs 2 4 (by decide) (by decide) false, hfits⟩

/-- The property fails in a state that is reached where the condition does. -/
theorem not_right_of_run {isn : SequenceNumber32} {maxBuffer dupAckThresh segmentSize rWnd : UInt32}
    {sackEnabled isRecovery : Bool} {calls : List TxCall} {P : TcpTxBuffer → Bool}
    (hcalls : TxCall.allowedFrom (start isn maxBuffer dupAckThresh sackEnabled) calls = true)
    (hs : ((start isn maxBuffer dupAckThresh sackEnabled).runFrom calls).any
      (fun s => P s && ! s.nextSegFits rWnd isRecovery) = true)
    (hseg : segmentSize ≠ 0) (hseg' : segmentSize.toNat < 2 ^ 31) :
    ∃ s, (start isn maxBuffer dupAckThresh sackEnabled).runFrom calls = some s ∧ P s = true ∧
      ¬ NextSegRight s segmentSize rWnd isRecovery := by
  obtain ⟨s, hs, hboth⟩ := (Option.any_eq_true _ _).mp hs
  obtain ⟨hP, hnot⟩ := Bool.and_eq_true_iff.mp hboth
  have h := (Streams.start isn maxBuffer dupAckThresh sackEnabled).runFrom hcalls hs
  refine ⟨s, hs, hP, fun hright => ?_⟩
  rw [(h.nextSegRight_iff_fits hseg hseg').mp hright] at hnot
  exact Bool.false_ne_true hnot

/-- **No bytes are returned** when as many are sent as the window has, and `SendDataPacket` is asked for them since sacked
bytes leave room in the window. A first segment at number zero is passed over by the third rule. -/
theorem not_run_nextSeg :
    (∃ s, (start 0 32768 3 true).runFrom [.add ⟨[1, 2, 3, 4, 5, 6], by decide⟩, .copyFromSequence 2 0,
        .copyFromSequence 2 2, .update [(2, 4)]] = some s ∧
      decide (s.nextSeg 2 4 false = some (4, 4) ∧
        SendState.sendPendingTurn ⟨.established, .caOpen, true, false, false, false, 2, 4, 10, 4⟩ s 2 = some (4, 0) ∧
        (s.copyFromSequence 0 4).map (fun r => r.1.isNone) = some true) = true ∧ ¬ NextSegRight s 2 4 false) ∧
    ∃ s, (start 0 32768 3 true).runFrom [.add ⟨[1, 2, 3, 4], by decide⟩, .copyFromSequence 2 0,
        .copyFromSequence 2 2] = some s ∧
      decide (s.nextSeg 2 10 true = some (2, 4)) = true ∧ ¬ NextSegRight s 2 10 true := by
  constructor
  · exact not_right_of_run (by decide) (by decide) (by decide) (by decide)
  · exact not_right_of_run (by decide) (by decide) (by decide) (by decide)

end TcpTxBuffer

end Ns3Ndn.Internet
