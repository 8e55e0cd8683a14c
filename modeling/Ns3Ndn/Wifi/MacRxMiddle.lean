import Ns3Ndn.Lib.Demux
import Ns3Ndn.Wifi.RecipientBlockAck

/-!
# Defragmentation

`wifi/model/mac-rx-middle.cc`: a receiver puts the fragments of an MSDU together, and does not pass up a retransmission of
the last frame. It has one state for each originator and TID. An MSDU whose last fragments never arrive leaves the state in
the middle of defragmentation, and frames of other MSDUs are then out of order, for ever.

* **`receive_msdu_iff`**: an MSDU is passed up once, and its retransmission is not, exactly when the state was not in the
  middle of another one.
-/

namespace Ns3Ndn.Wifi

open DemuxLib

abbrev MacRxMiddle.Mac48Address := BitVec 48

def MacRxMiddle.Mac48Address.isGroup (a : MacRxMiddle.Mac48Address) : Bool := a.getLsbD 40

/-- The TID is there in QoS data. -/
structure WifiMacHeader where
  addr1 : MacRxMiddle.Mac48Address
  addr2 : MacRxMiddle.Mac48Address
  qosTid : Option (Fin 16)
  isRetry : Bool
  isMoreFragments : Bool
  sequenceNumber : SequenceNumber
  fragmentNumber : Fin 16
deriving DecidableEq

def WifiMacHeader.getSequenceControl (hdr : WifiMacHeader) : ℕ := hdr.sequenceNumber.val <<< 4 ||| hdr.fragmentNumber.val

abbrev WifiMacQueueItem := WifiMacHeader × List UInt8

/-! ## The state of an originator -/

structure OriginatorRxStatus where
  defragmenting : Bool := false
  lastSequenceControl : ℕ := 0xffff
  fragments : List (List UInt8) := []
deriving DecidableEq

namespace OriginatorRxStatus

variable (s : OriginatorRxStatus)

def accumulateFirstFragment (packet : List UInt8) : OriginatorRxStatus :=
  { s with defragmenting := true, fragments := s.fragments ++ [packet] }

def accumulateLastFragment (packet : List UInt8) : OriginatorRxStatus × List UInt8 :=
  ({ s with defragmenting := false, fragments := [] }, (s.fragments ++ [packet]).flatten)

def accumulateFragment (packet : List UInt8) : OriginatorRxStatus := { s with fragments := s.fragments ++ [packet] }

def isNextFragment (sequenceControl : ℕ) : Bool :=
  sequenceControl >>> 4 == s.lastSequenceControl >>> 4 &&
    sequenceControl &&& 0x0f == (s.lastSequenceControl &&& 0x0f) + 1

def setSequenceControl (sequenceControl : ℕ) : OriginatorRxStatus := { s with lastSequenceControl := sequenceControl }

def isDuplicate (hdr : WifiMacHeader) : Bool := hdr.isRetry && s.lastSequenceControl == hdr.getSequenceControl

/-- The assertions of the three cases are their conditions. -/
def handleFragments (packet : List UInt8) (hdr : WifiMacHeader) : OriginatorRxStatus × Option (List UInt8) :=
  if s.defragmenting then
    if hdr.isMoreFragments then
      if s.isNextFragment hdr.getSequenceControl then
        ((s.accumulateFragment packet).setSequenceControl hdr.getSequenceControl, none)
      else (s, none)
    else if s.isNextFragment hdr.getSequenceControl then
      ((s.accumulateLastFragment packet).1.setSequenceControl hdr.getSequenceControl, some (s.accumulateLastFragment packet).2)
    else (s, none)
  else if hdr.isMoreFragments then
    ((s.accumulateFirstFragment packet).setSequenceControl hdr.getSequenceControl, none)
  else (s, some packet)

/-- `Receive`, after `Lookup`: the state, and what is passed up. -/
def receive (mpdu : WifiMacQueueItem) : OriginatorRxStatus × List WifiMacQueueItem :=
  if s.isDuplicate mpdu.1 then (s, [])
  else
    match s.handleFragments mpdu.2 mpdu.1 with
    | (s, none) => (s, [])
    | (s, some aggregate) =>
      (if ! mpdu.1.addr1.isGroup then s.setSequenceControl mpdu.1.getSequenceControl else s, [(mpdu.1, aggregate)])

end OriginatorRxStatus

/-! ## All originators -/

/-- The keys of the two maps. -/
abbrev Originator := (MacRxMiddle.Mac48Address × Fin 16) ⊕ MacRxMiddle.Mac48Address

def WifiMacHeader.originator (hdr : WifiMacHeader) : Originator :=
  match hdr.qosTid with
  | some tid => if ! hdr.addr2.isGroup then .inl (hdr.addr2, tid) else .inr hdr.addr2
  | none => .inr hdr.addr2

/-- The states of the two maps; `Lookup` makes a new one where there is none. -/
abbrev MacRxMiddle := Originator → OriginatorRxStatus

namespace MacRxMiddle

def init : MacRxMiddle := fun _ => {}

def receive : MacRxMiddle → WifiMacQueueItem → MacRxMiddle × List WifiMacQueueItem :=
  demux (fun mpdu => mpdu.1.originator) OriginatorRxStatus.receive

def receiveAll (m : MacRxMiddle) (mpdus : List WifiMacQueueItem) : MacRxMiddle × List WifiMacQueueItem :=
  runOut receive m mpdus

def ofOriginator (k : Originator) (mpdus : List WifiMacQueueItem) : List WifiMacQueueItem :=
  mpdus.filter fun mpdu => mpdu.1.originator = k

end MacRxMiddle

/-! ## The frames of an MSDU -/

/-- The frames of an MSDU from fragment `i` on, in order. Any of them may be retransmissions. -/
def IsMsdu (seq : SequenceNumber) (addr1 : MacRxMiddle.Mac48Address) : ℕ → List WifiMacQueueItem → Prop
  | _, [] => False
  | i, [f] =>
    (f.1.sequenceNumber = seq ∧ f.1.addr1 = addr1 ∧ f.1.fragmentNumber.val = i) ∧ f.1.isMoreFragments = false
  | i, f :: g :: rest =>
    (f.1.sequenceNumber = seq ∧ f.1.addr1 = addr1 ∧ f.1.fragmentNumber.val = i) ∧ f.1.isMoreFragments = true ∧
      IsMsdu seq addr1 (i + 1) (g :: rest)

/-- The number is not that of the frame that was recorded last, if there is one. -/
def OriginatorRxStatus.New (s : OriginatorRxStatus) (seq : SequenceNumber) : Prop :=
  s.lastSequenceControl = 0xffff ∨ s.lastSequenceControl >>> 4 ≠ seq.val

/-- The packet that the fragments make. -/
def payload (mpdus : List WifiMacQueueItem) : List UInt8 := (mpdus.map Prod.snd).flatten

section SequenceControl

variable (hdr : WifiMacHeader)

theorem getSequenceControl_eq : hdr.getSequenceControl = 2 ^ 4 * hdr.sequenceNumber + hdr.fragmentNumber := by
  rw [WifiMacHeader.getSequenceControl, Nat.shiftLeft_eq, Nat.mul_comm,
    ← Nat.two_pow_add_eq_or_of_lt hdr.fragmentNumber.isLt]

theorem getSequenceControl_shiftRight : hdr.getSequenceControl >>> 4 = hdr.sequenceNumber := by
  have hlt := hdr.fragmentNumber.isLt
  rw [Nat.shiftRight_eq_div_pow, getSequenceControl_eq]
  omega

theorem getSequenceControl_and : hdr.getSequenceControl &&& 0x0f = hdr.fragmentNumber := by
  have hlt := hdr.fragmentNumber.isLt
  rw [show 0x0f = 2 ^ 4 - 1 from rfl, Nat.and_two_pow_sub_one_eq_mod, getSequenceControl_eq]
  omega

theorem getSequenceControl_ne (hfrag : hdr.fragmentNumber.val = 0) : hdr.getSequenceControl ≠ 0xffff := by
  rw [getSequenceControl_eq, hfrag]
  omega

end SequenceControl

section Frames

variable {seq : SequenceNumber} {addr1 : MacRxMiddle.Mac48Address} {f : WifiMacQueueItem} {frames rest : List WifiMacQueueItem} {i : ℕ}

theorem IsMsdu.cons {g : WifiMacQueueItem} (h : IsMsdu seq addr1 i (f :: g :: rest)) :
    (f.1.sequenceNumber = seq ∧ f.1.addr1 = addr1 ∧ f.1.fragmentNumber.val = i) ∧ f.1.isMoreFragments = true ∧
      IsMsdu seq addr1 (i + 1) (g :: rest) := h

theorem IsMsdu.head (h : IsMsdu seq addr1 i (f :: rest)) :
    f.1.sequenceNumber = seq ∧ f.1.addr1 = addr1 ∧ f.1.fragmentNumber.val = i := by
  cases rest with
  | nil => exact h.1
  | cons g rest => exact h.1

theorem IsMsdu.sequenceNumber_eq (h : IsMsdu seq addr1 i frames) : ∀ f ∈ frames, f.1.sequenceNumber = seq := by
  induction frames generalizing i with
  | nil => exact h.elim
  | cons f rest ih =>
    refine List.forall_mem_cons.mpr ⟨h.head.1, ?_⟩
    cases rest with
    | nil => exact fun f hf => absurd hf List.not_mem_nil
    | cons g rest => exact ih h.cons.2.2

end Frames

namespace OriginatorRxStatus

variable {s : OriginatorRxStatus} {seq : SequenceNumber} {addr1 : MacRxMiddle.Mac48Address} {f : WifiMacQueueItem}
  {frames rest : List WifiMacQueueItem} {i : ℕ}

theorem isNextFragment_iff {hdr last : WifiMacHeader} (hlast : s.lastSequenceControl = last.getSequenceControl) :
    s.isNextFragment hdr.getSequenceControl = true ↔
      hdr.sequenceNumber = last.sequenceNumber ∧ hdr.fragmentNumber.val = last.fragmentNumber + 1 := by
  rw [isNextFragment, Bool.and_eq_true, beq_iff_eq, beq_iff_eq, hlast, getSequenceControl_shiftRight,
    getSequenceControl_shiftRight, getSequenceControl_and, getSequenceControl_and, Fin.val_inj]

theorem not_isNextFragment_of_new (hnew : s.New seq) {hdr : WifiMacHeader} (hseq : hdr.sequenceNumber = seq) :
    s.isNextFragment hdr.getSequenceControl = false := by
  rw [isNextFragment, getSequenceControl_shiftRight, getSequenceControl_and, hseq, Bool.and_eq_false_iff, beq_eq_false_iff_ne,
    beq_eq_false_iff_ne]
  rcases hnew with hnone | hne
  · refine .inr ?_
    have hlt := hdr.fragmentNumber.isLt
    rw [hnone, show 0xffff &&& 0x0f = 15 from rfl]
    omega
  · exact .inl hne.symm

theorem not_isDuplicate_of_new (hnew : s.New seq) {hdr : WifiMacHeader} (hseq : hdr.sequenceNumber = seq)
    (hfrag : hdr.fragmentNumber.val = 0) : s.isDuplicate hdr = false := by
  rw [isDuplicate, Bool.and_eq_false_iff, beq_eq_false_iff_ne]
  refine .inr fun heq => ?_
  rcases hnew with hnone | hne
  · exact getSequenceControl_ne hdr hfrag (heq.symm.trans hnone)
  · rw [heq, getSequenceControl_shiftRight, hseq] at hne
    exact hne rfl

/-! ## One frame -/

/-- **In the middle of another MSDU, a frame is lost.** -/
theorem receive_of_defragmenting (hdefrag : s.defragmenting = true) (hnew : s.New seq) (hseq : f.1.sequenceNumber = seq) :
    s.receive f = (s, []) := by
  have hhandle : s.handleFragments f.2 f.1 = (s, none) := by
    rw [handleFragments, if_pos hdefrag, not_isNextFragment_of_new hnew hseq, if_neg Bool.false_ne_true,
      if_neg Bool.false_ne_true, ite_self]
  rw [receive, hhandle]
  exact ite_self _

theorem receive_whole (hdefrag : s.defragmenting = false) (hdup : s.isDuplicate f.1 = false)
    (hmore : f.1.isMoreFragments = false) : s.receive f =
      (if ! f.1.addr1.isGroup then s.setSequenceControl f.1.getSequenceControl else s, [f]) := by
  rw [receive, hdup, if_neg Bool.false_ne_true, handleFragments, hdefrag, if_neg Bool.false_ne_true, hmore,
    if_neg Bool.false_ne_true]

theorem receive_first (hdefrag : s.defragmenting = false) (hdup : s.isDuplicate f.1 = false)
    (hmore : f.1.isMoreFragments = true) : s.receive f =
      ({ s with
          defragmenting := true
          fragments := s.fragments ++ [f.2]
          lastSequenceControl := f.1.getSequenceControl }, []) := by
  rw [receive, hdup, if_neg Bool.false_ne_true, handleFragments, hdefrag, if_neg Bool.false_ne_true, if_pos hmore]
  rfl

section Next

variable {last : WifiMacHeader} (hdefrag : s.defragmenting = true) (hlast : s.lastSequenceControl = last.getSequenceControl)
  (hseq : f.1.sequenceNumber = last.sequenceNumber) (hfrag : f.1.fragmentNumber.val = last.fragmentNumber + 1)

include hlast hfrag in
theorem not_isDuplicate_of_next : s.isDuplicate f.1 = false := by
  rw [isDuplicate, Bool.and_eq_false_iff, beq_eq_false_iff_ne, hlast]
  refine .inr fun heq => ?_
  have hand := getSequenceControl_and f.1
  rw [← heq, getSequenceControl_and] at hand
  omega

include hdefrag hlast hseq hfrag in
theorem receive_next (hmore : f.1.isMoreFragments = true) : s.receive f =
    ({ s with fragments := s.fragments ++ [f.2], lastSequenceControl := f.1.getSequenceControl }, []) := by
  rw [receive, not_isDuplicate_of_next hlast hfrag, if_neg Bool.false_ne_true, handleFragments, if_pos hdefrag, if_pos hmore,
    if_pos ((isNextFragment_iff hlast).mpr ⟨hseq, hfrag⟩)]
  rfl

include hdefrag hlast hseq hfrag in
theorem receive_last (hmore : f.1.isMoreFragments = false) : s.receive f =
    ({ defragmenting := false, fragments := [], lastSequenceControl := f.1.getSequenceControl },
      [(f.1, (s.fragments ++ [f.2]).flatten)]) := by
  rw [receive, not_isDuplicate_of_next hlast hfrag, if_neg Bool.false_ne_true, handleFragments, if_pos hdefrag, hmore,
    if_neg Bool.false_ne_true, if_pos ((isNextFragment_iff hlast).mpr ⟨hseq, hfrag⟩)]
  exact Prod.ext (ite_self _) rfl

end Next

theorem receive_copy (hretry : f.1.isRetry = true) (hlast : s.lastSequenceControl = f.1.getSequenceControl) :
    s.receive f = (s, []) := by
  rw [receive, isDuplicate, hretry, hlast, beq_self_eq_true, Bool.and_self, if_pos rfl]

/-! ## All frames of an MSDU -/

/-- **The fragments behind one that was recorded.** -/
theorem runOut_rest {last : WifiMacHeader} (hdefrag : s.defragmenting = true)
    (hlast : s.lastSequenceControl = last.getSequenceControl) (h : IsMsdu last.sequenceNumber addr1 (last.fragmentNumber + 1) frames) :
    ∃ e, frames.getLast? = some e ∧ runOut receive s frames =
      ({ defragmenting := false, fragments := [], lastSequenceControl := e.1.getSequenceControl },
        [(e.1, s.fragments.flatten ++ payload frames)]) := by
  induction frames generalizing s last with
  | nil => exact h.elim
  | cons f rest ih =>
    obtain ⟨hseq, -, hfrag⟩ := h.head
    cases rest with
    | nil =>
      refine ⟨f, rfl, ?_⟩
      rw [runOut_cons, receive_last hdefrag hlast hseq hfrag h.2, List.flatten_append]
      rfl
    | cons g rest =>
      obtain ⟨-, hmore, hrest⟩ := h.cons
      rw [← hfrag, ← hseq] at hrest
      obtain ⟨e, he, hrun⟩ := ih (s := { s with
        fragments := s.fragments ++ [f.2]
        lastSequenceControl := f.1.getSequenceControl }) hdefrag rfl hrest
      refine ⟨e, he, ?_⟩
      rw [runOut_cons, receive_next hdefrag hlast hseq hfrag hmore, hrun, List.nil_append, List.flatten_append,
        List.append_assoc, List.flatten_singleton]
      rfl

/-- **An MSDU arrives** where no other one was left in the middle: it is passed up, and its last frame is recorded unless it is
alone and to a group. -/
theorem runOut_msdu (hdefrag : s.defragmenting = false) (hfragments : s.fragments = []) (hnew : s.New seq)
    (h : IsMsdu seq addr1 0 frames) : ∃ e, frames.getLast? = some e ∧
      (runOut receive s frames).2 = [(e.1, payload frames)] ∧ (runOut receive s frames).1 =
        if addr1.isGroup = true ∧ frames.length = 1 then s else { s with lastSequenceControl := e.1.getSequenceControl } := by
  cases frames with
  | nil => exact h.elim
  | cons f rest =>
    obtain ⟨hseq, haddr, hfrag⟩ := h.head
    have hdup := not_isDuplicate_of_new hnew hseq hfrag
    cases rest with
    | nil =>
      refine ⟨f, rfl, ?_, ?_⟩
      · rw [runOut_cons, receive_whole hdefrag hdup h.2]
        show [f] ++ [] = [(f.1, [f.2].flatten)]
        rw [List.append_nil, List.flatten_singleton]
      · rw [runOut_cons, receive_whole hdefrag hdup h.2, haddr]
        cases addr1.isGroup
        · rfl
        · rfl
    | cons g rest =>
      obtain ⟨-, hmore, hrest⟩ := h.cons
      have hrest' : IsMsdu f.1.sequenceNumber addr1 (f.1.fragmentNumber + 1) (g :: rest) := by
        rw [hfrag, hseq]
        exact hrest
      obtain ⟨e, he, hrun⟩ := runOut_rest (s := { s with
        defragmenting := true
        fragments := s.fragments ++ [f.2]
        lastSequenceControl := f.1.getSequenceControl }) rfl rfl hrest'
      refine ⟨e, he, ?_, ?_⟩
      · rw [runOut_cons, receive_first hdefrag hdup hmore, hrun, hfragments]
        show [] ++ [(e.1, [f.2].flatten ++ payload (g :: rest))] = _
        rw [List.nil_append, List.flatten_singleton]
        rfl
      · rw [runOut_cons, receive_first hdefrag hdup hmore, hrun, if_neg (by simp), ← hdefrag, ← hfragments]

theorem receive_fragments (h : s.defragmenting = false → s.fragments = []) (f : WifiMacQueueItem) :
    (s.receive f).1.defragmenting = false → (s.receive f).1.fragments = [] := by
  have hhandle : (s.handleFragments f.2 f.1).1.defragmenting = false → (s.handleFragments f.2 f.1).1.fragments = [] := by
    rw [handleFragments]
    split_ifs with hdefrag
    · exact fun hfalse => absurd hfalse (by rw [setSequenceControl, accumulateFragment, hdefrag]; exact Bool.noConfusion)
    · exact h
    · exact fun _ => rfl
    · exact h
    · exact Bool.noConfusion
    · exact h
  rw [receive]
  by_cases hdup : s.isDuplicate f.1 = true
  · rw [if_pos hdup]
    exact h
  · rw [if_neg hdup]
    revert hhandle
    rcases s.handleFragments f.2 f.1 with ⟨s', _ | aggregate⟩
    · exact id
    · intro hhandle
      dsimp only
      split_ifs
      · exact hhandle
      · exact hhandle

/-- **An MSDU and a retransmission of its last frame**, from any state of its originator. -/
theorem runOut_msdu_iff (h : s.defragmenting = false → s.fragments = []) (hnew : s.New seq) (hframes : IsMsdu seq addr1 0 frames)
    {last copy : WifiMacQueueItem} (hlast : frames.getLast? = some last) (hcopy : copy.1 = { last.1 with isRetry := true }) :
    ((runOut receive s frames).2 = [(last.1, payload frames)] ∧
      ((runOut receive s frames).1.receive copy).2 = []) ↔
        s.defragmenting = false ∧ (addr1.isGroup = false ∨ 1 < frames.length) := by
  cases hdefrag : s.defragmenting with
  | true =>
    have hignored : runOut receive s frames = (s, []) :=
      runOut_of_ignored _ fun f hf => receive_of_defragmenting hdefrag hnew (hframes.sequenceNumber_eq f hf)
    rw [hignored]
    exact iff_of_false (fun hout => List.cons_ne_nil _ _ hout.1.symm) fun hfalse => Bool.noConfusion hfalse.1
  | false =>
    obtain ⟨e, he, hout, hstate⟩ := runOut_msdu hdefrag (h hdefrag) hnew hframes
    obtain rfl := Option.some.inj (hlast.symm.trans he)
    rw [hout, hstate, and_iff_right rfl, and_iff_right rfl]
    have hcontrol : copy.1.getSequenceControl = last.1.getSequenceControl := by rw [hcopy]; rfl
    split_ifs with halone
    · -- the frame to a group is not recorded
      obtain ⟨f, rfl⟩ := List.length_eq_one_iff.mp halone.2
      obtain rfl := Option.some.inj hlast
      obtain ⟨⟨hseq, haddr, hfrag⟩, hmore⟩ := hframes
      have hdup : s.isDuplicate copy.1 = false :=
        not_isDuplicate_of_new hnew (by rw [hcopy]; exact hseq) (by rw [hcopy]; exact hfrag)
      have hmore' : copy.1.isMoreFragments = false := by rw [hcopy]; exact hmore
      rw [receive_whole hdefrag hdup hmore']
      refine iff_of_false (List.cons_ne_nil _ _) ?_
      rw [halone.1]
      rintro (hfalse | hlt)
      · exact Bool.noConfusion hfalse
      · exact absurd hlt (lt_irrefl 1)
    · have hretry : copy.1.isRetry = true := by rw [hcopy]
      rw [receive_copy hretry hcontrol.symm]
      refine iff_of_true rfl ?_
      by_contra hnot
      rw [not_or, Bool.not_eq_false, not_lt] at hnot
      refine halone ⟨hnot.1, le_antisymm hnot.2 ?_⟩
      exact List.length_pos_iff.mpr fun hnil => by rw [hnil] at hlast; cases hlast

end OriginatorRxStatus

/-! ## Among frames of other originators -/

namespace MacRxMiddle

theorem receive_originator (s : OriginatorRxStatus) (f : WifiMacQueueItem) :
    ∀ o ∈ (s.receive f).2, o.1.originator = f.1.originator := by
  intro o ho
  rw [OriginatorRxStatus.receive] at ho
  by_cases hdup : s.isDuplicate f.1 = true
  · rw [if_pos hdup] at ho
    cases ho
  · rw [if_neg hdup] at ho
    revert ho
    rcases s.handleFragments f.2 f.1 with ⟨s', _ | aggregate⟩
    · exact fun ho => absurd ho List.not_mem_nil
    · intro ho
      rw [List.mem_singleton.mp ho]

/-- **The state of an originator is reached by its own frames.** -/
theorem receiveAll_originator (k : Originator) (m : MacRxMiddle) (mpdus : List WifiMacQueueItem) :
    (m.receiveAll mpdus).1 k = (runOut OriginatorRxStatus.receive (m k) (ofOriginator k mpdus)).1 ∧
      ofOriginator k (m.receiveAll mpdus).2 = (runOut OriginatorRxStatus.receive (m k) (ofOriginator k mpdus)).2 :=
  runOut_demux (fun mpdu : WifiMacQueueItem => mpdu.1.originator) OriginatorRxStatus.receive
    (fun mpdu : WifiMacQueueItem => mpdu.1.originator) receive_originator k m mpdus

theorem fragments_of_init (k : Originator) (mpdus : List WifiMacQueueItem) :
    ((init.receiveAll mpdus).1 k).defragmenting = false → ((init.receiveAll mpdus).1 k).fragments = [] := by
  rw [(receiveAll_originator k init mpdus).1]
  exact runOut_induction OriginatorRxStatus.receive (P := fun s => s.defragmenting = false → s.fragments = [])
    (fun s f hs => OriginatorRxStatus.receive_fragments hs f) (fun _ => rfl) _

/-- **After any frames, an MSDU is passed up once and the retransmission of its last frame is not**, exactly when its
originator is not left in the middle of another MSDU and the last frame is recorded. -/
theorem receive_msdu_iff (history arrivals copies frames : List WifiMacQueueItem) (k : Originator) (seq : SequenceNumber)
    (addr1 : MacRxMiddle.Mac48Address) (last copy : WifiMacQueueItem) (hnew : ((init.receiveAll history).1 k).New seq)
    (hframes : IsMsdu seq addr1 0 frames) (hlast : frames.getLast? = some last)
    (hcopy : copy.1 = { last.1 with isRetry := true }) (harrivals : ofOriginator k arrivals = frames)
    (hcopies : ofOriginator k copies = [copy]) :
    (ofOriginator k ((init.receiveAll history).1.receiveAll arrivals).2 = [(last.1, payload frames)] ∧
      ofOriginator k (((init.receiveAll history).1.receiveAll arrivals).1.receiveAll copies).2 = []) ↔
        ((init.receiveAll history).1 k).defragmenting = false ∧ (addr1.isGroup = false ∨ 1 < frames.length) := by
  have hiff := OriginatorRxStatus.runOut_msdu_iff (fragments_of_init k history) hnew hframes hlast hcopy
  rw [(receiveAll_originator k (init.receiveAll history).1 arrivals).2,
    (receiveAll_originator k _ copies).2, (receiveAll_originator k (init.receiveAll history).1 arrivals).1, harrivals,
    hcopies, runOut_cons, runOut_nil, List.append_nil]
  exact hiff

/-- A frame of one station, of TID 0. -/
def sampleHeader (seq : SequenceNumber) (frag : Fin 16) (more : Bool) : WifiMacHeader :=
  ⟨0x000000000001, 0x000000000002, some 0, false, more, seq, frag⟩

def sampleWhole (seq : SequenceNumber) : WifiMacHeader := sampleHeader seq 0 false

/-- Two fragments, the second one a retransmission, behind an MSDU without fragments. -/
theorem receive_msdu_two : (ofOriginator (.inl (2, 0)) ((init.receiveAll [(sampleHeader 5 0 false, [1])]).1.receiveAll
      [(sampleHeader 6 0 true, [2]), (sampleHeader 6 1 false, [3])]).2 = [(sampleHeader 6 1 false, [2, 3])] ∧
    ofOriginator (.inl (2, 0)) (((init.receiveAll [(sampleHeader 5 0 false, [1])]).1.receiveAll
      [(sampleHeader 6 0 true, [2]), (sampleHeader 6 1 false, [3])]).1.receiveAll
        [({ sampleHeader 6 1 false with isRetry := true }, [3])]).2 = []) ↔
    ((init.receiveAll [(sampleHeader 5 0 false, [1])]).1 (.inl (2, 0))).defragmenting = false ∧
      (MacRxMiddle.Mac48Address.isGroup 1 = false ∨ 1 < 2) :=
  receive_msdu_iff [(sampleHeader 5 0 false, [1])] [(sampleHeader 6 0 true, [2]), (sampleHeader 6 1 false, [3])]
    [({ sampleHeader 6 1 false with isRetry := true }, [3])] [(sampleHeader 6 0 true, [2]), (sampleHeader 6 1 false, [3])]
    (.inl (2, 0)) 6 1 (sampleHeader 6 1 false, [3]) ({ sampleHeader 6 1 false with isRetry := true }, [3])
    (.inr (by decide)) ⟨⟨rfl, rfl, rfl⟩, rfl, ⟨rfl, rfl, rfl⟩, rfl⟩ rfl rfl rfl rfl

/-- A first fragment whose MSDU is given up, and then an MSDU without fragments: nothing is passed up. -/
theorem not_receive_msdu : ofOriginator (.inl (2, 0))
    ((init.receiveAll [(sampleHeader 5 0 true, [1])]).1.receiveAll [(sampleHeader 6 0 false, [2])]).2 = [] := by
  decide

end MacRxMiddle

end Ns3Ndn.Wifi
