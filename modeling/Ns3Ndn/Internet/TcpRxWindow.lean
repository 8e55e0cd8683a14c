import Ns3Ndn.Internet.TcpRxPlaces

/-!
# The window of the receive buffer

`TcpRxBuffer::Add` trims a segment to the window that begins at the first piece it keeps. That is the receive window when
the piece can be extracted. When the first piece came out of order the window begins too late, and when nothing is kept
there is none, so that a segment which begins within the receive window can bring more than the buffer is to have.

* **`size_le_maxBuffer`**: the size and `MaxRxSequence` in every run of such segments; `not_size_le_maxBuffer`: one segment
  is too much.
-/

namespace Ns3Ndn.Internet

open Network SequenceNumber32 PieceLib

/-- `TcpSocket::TcpStates_t`. -/
inductive TcpState where
  | closed
  | listen
  | synSent
  | synRcvd
  | established
  | closeWait
  | lastAck
  | finWait1
  | finWait2
  | closing
  | timeWait
  deriving DecidableEq

/-- `TcpSocketBase::OutOfRange`. -/
def outOfRange (state : TcpState) (s : TcpRxBuffer) (head tail : SequenceNumber32) : Bool :=
  if state = .listen ∨ state = .synSent ∨ state = .synRcvd then false
  else if state = .lastAck ∨ state = .closing ∨ state = .closeWait then s.nextRxSeq != head
  else lt tail s.nextRxSeq || le s.maxRxSequence head

/-! ## Runs -/

/-- A call of the buffer. -/
inductive RxStep where
  | add (p : List UInt8) (sequenceNumber : SequenceNumber32)
  | extract (maxSize : UInt32)

namespace TcpRxBuffer

def step (s : TcpRxBuffer) : RxStep → Option TcpRxBuffer
  | .add p sequenceNumber => (s.add p sequenceNumber).map Prod.snd
  | .extract maxSize => (s.extract maxSize).map Prod.snd

def create (isn : SequenceNumber32) (maxBuffer : UInt32) : TcpRxBuffer := { nextRxSeq := isn, maxBuffer := maxBuffer }

/-- What calls lead to of which each can be made in the buffer it is made in. -/
def Steps (ok : TcpRxBuffer → RxStep → Prop) : TcpRxBuffer → TcpRxBuffer → Prop :=
  Relation.ReflTransGen fun s s' => ∃ c, ok s c ∧ s.step c = some s'

end TcpRxBuffer

namespace RxStep

/-- Segments are shorter than half of the circle of sequence numbers, and in the range that the socket checks. -/
def InRange (s : TcpRxBuffer) : RxStep → Prop
  | add p sequenceNumber =>
    p.length < 2 ^ 31 ∧ outOfRange .established s sequenceNumber (sequenceNumber + packetSize p) = false
  | extract _ => True

/-- **A segment ends within the receive window, or is trimmed to it**, since the first piece that is kept can be
extracted. -/
def Trimmed (s : TcpRxBuffer) : RxStep → Prop
  | add p sequenceNumber =>
    le (sequenceNumber + packetSize p) s.maxRxSequence = true ∨ ∃ first ∈ s.data.head?, lt first.1 s.nextRxSeq = true
  | extract _ => True

end RxStep

/-! ## Positions of segments -/

theorem exists_seqAt (isn a : SequenceNumber32) {m : ℕ} (hm : 2 ^ 31 ≤ m) :
    ∃ f, m ≤ f + 2 ^ 31 ∧ f < m + 2 ^ 31 ∧ a = seqAt isn f := by
  have hd := (a - seqAt isn m).toNat_lt
  have heq : ∀ k, a = seqAt isn k ↔ a.toNat = (isn.toNat + k) % 2 ^ 32 := fun k => by
    rw [← UInt32.toNat_inj, toNat_seqAt]
  have hsub : (a - seqAt isn m).toNat = (2 ^ 32 - (isn.toNat + m) % 2 ^ 32 + a.toNat) % 2 ^ 32 := by
    rw [UInt32.toNat_sub, toNat_seqAt]
  have ha := a.toNat_lt
  obtain ⟨d, hd'⟩ : ∃ d, d = (a - seqAt isn m).toNat := ⟨_, rfl⟩
  rw [← hd'] at hd hsub
  rcases lt_or_ge d (2 ^ 31) with hlt | hge
  · refine ⟨m + d, by omega, by omega, (heq _).mpr ?_⟩
    omega
  · refine ⟨m + d - 2 ^ 32, by omega, by omega, (heq _).mpr ?_⟩
    omega

theorem gt_asymm {a b : SequenceNumber32} (h : gt a b = true) : gt b a = false := by
  rw [← Bool.not_eq_true, gt_iff]
  have h' := gt_iff.mp h
  omega

namespace Placed

variable {isn : SequenceNumber32} {maxBuffer : UInt32} {slack r n : ℕ} {s s' : TcpRxBuffer} {l : List (List UInt8 × ℕ)}
  {p : List UInt8} {sequenceNumber : SequenceNumber32}

/-- **A segment in range** begins before the end of the window, and does not end before the byte that is missing. -/
theorem exists_of_inRange (h : Placed isn maxBuffer 0 s l r n) (hmax : maxBuffer.toNat < 2 ^ 30) (hr : 2 ^ 31 ≤ r)
    (hin : (RxStep.add p sequenceNumber).InRange s) : ∃ f, sequenceNumber = seqAt isn f ∧ f < r + maxBuffer.toNat ∧
      r + maxBuffer.toNat ≤ f + 2 ^ 31 ∧ n ≤ f + p.length := by
  obtain ⟨hlen, hrange⟩ := hin
  have hnext := h.next_le
  have hread := h.read_le
  obtain ⟨f, hmf, hfm, rfl⟩ := exists_seqAt isn sequenceNumber (m := r + maxBuffer.toNat) (by omega)
  obtain ⟨htail, hhead⟩ : lt (seqAt isn (f + p.length)) (seqAt isn n) = false ∧
      le (seqAt isn (r + maxBuffer.toNat)) (seqAt isn f) = false := by
    rw [outOfRange, if_neg (by decide), if_neg (by decide), h.maxRxSequence_eq (by omega), h.next, seqAt_add_size,
      Bool.or_eq_false_iff] at hrange
    exact hrange
  have hlt : f < r + maxBuffer.toNat := by
    by_contra hge
    rw [le_seqAt (by omega) (by omega)] at hhead
    exact of_decide_eq_false hhead (not_lt.mp hge)
  refine ⟨f, rfl, hlt, hmf, not_lt.mp fun hshort => ?_⟩
  rcases lt_or_ge n (f + p.length + 2 ^ 31) with hnear | hfar
  · rw [lt_seqAt (by omega) hnear, decide_eq_false_iff_not] at htail
    exact htail hshort
  · -- an empty segment half of the circle before the window, which is empty
    have hend : f + p.length = f := by omega
    have hfull : r + maxBuffer.toNat = n := by omega
    rw [le, Bool.not_eq_false', hfull] at hhead
    rw [hend, lt, gt_asymm hhead, Bool.not_false, Bool.true_and, bne, beq_seqAt (by omega) (by omega),
      decide_eq_false (by omega)] at htail
    exact Bool.noConfusion htail

/-- A segment in range that does not go beyond the window compares by positions. -/
theorem fits_of_inRange (h : Placed isn maxBuffer 0 s l r n) (hmax : maxBuffer.toNat < 2 ^ 30) (hr : 2 ^ 31 ≤ r)
    (hin : (RxStep.add p sequenceNumber).InRange s) (htrim : (RxStep.add p sequenceNumber).Trimmed s) :
    ∃ f, sequenceNumber = seqAt isn f ∧ Fits maxBuffer 0 r n f (f + p.length) := by
  obtain ⟨f, rfl, hlt, hmf, hend⟩ := h.exists_of_inRange hmax hr hin
  have hlen := hin.1
  have hnext := h.next_le
  have hread := h.read_le
  refine ⟨f, rfl, Nat.le_add_right _ _, by omega, by omega, hend, by omega, fun heq => ?_⟩
  rcases htrim with hle | ⟨first, hfirst, hbelow⟩
  · rw [h.maxRxSequence_eq (by omega), seqAt_add_size, le_seqAt (by omega) (by omega), decide_eq_true_eq] at hle
    omega
  · rw [h.data] at hfirst
    cases l with
    | nil => exact absurd hfirst (Option.not_mem_none first)
    | cons q rest =>
      have hq := h.place List.mem_cons_self
      obtain rfl := Option.some.inj hfirst
      rw [h.next, lt_seqAt (by omega) (by omega), decide_eq_true_eq] at hbelow
      omega

theorem add (h : Placed isn maxBuffer slack s l r n) (hmax : maxBuffer.toNat + slack < 2 ^ 30) (hlen : p.length < 2 ^ 31)
    {f : ℕ} (hseg : Fits maxBuffer slack r n f (f + p.length)) :
    ∃ b s' l' n', s.add p (seqAt isn f) = some (b, s') ∧ Placed isn maxBuffer slack s' l' r n' := by
  obtain ⟨a, b, hfit⟩ : ∃ a b, Tracks.fit n maxBuffer l f (f + p.length) = (a, b) := ⟨_, _, rfl⟩
  rcases lt_or_ge (trim a b l).1 (trim a b l).2.1 with hlt | hnone
  · rcases (h.left hseg hfit hlt).next.eq_or_lt with hnogap | hgap
    · obtain ⟨s', hadd, hs', -⟩ := h.add_next hmax hlen hseg hfit hlt hnogap.symm
      exact ⟨true, s', _, _, hadd, hs'⟩
    · obtain ⟨s', hadd, hs', -⟩ := h.add_beyond hmax hlen hseg hfit hlt hgap
      exact ⟨true, s', _, _, hadd, hs'⟩
  · exact ⟨false, s, l, n, h.add_none hmax hseg hfit hnone, h⟩

/-- **One step**: no assertion fails, and the window goes on from `r`. -/
theorem step (h : Placed isn maxBuffer 0 s l r n) (hmax : maxBuffer.toNat < 2 ^ 30) (hr : 2 ^ 31 ≤ r) {c : RxStep}
    (hin : c.InRange s) (htrim : c.Trimmed s) : ∃ s' l' r' n', s.step c = some s' ∧ Placed isn maxBuffer 0 s' l' r' n' ∧
      r ≤ r' ∧ r' ≤ r + maxBuffer.toNat := by
  cases c with
  | add p sequenceNumber =>
    obtain ⟨f, rfl, hseg⟩ := h.fits_of_inRange hmax hr hin htrim
    obtain ⟨b, s', l', n', hadd, hs'⟩ := h.add (by omega) hin.1 hseg
    exact ⟨s', l', r, n', by rw [TcpRxBuffer.step, hadd, Option.map_some], hs', le_rfl, Nat.le_add_right _ _⟩
  | extract maxSize =>
    have hnext := h.next_le
    obtain ⟨out, s', l', hextract, hs', -⟩ := h.extract (by omega) maxSize
    exact ⟨s', l', _, n, by rw [TcpRxBuffer.step, hextract, Option.map_some], hs', by omega, by omega⟩

theorem size_le (h : Placed isn maxBuffer 0 s l r n) (hmax : maxBuffer.toNat < 2 ^ 30) : s.size ≤ s.maxBuffer := by
  have htotal := total_le h.apart (fun q hq => (h.window q hq).1) (fun q hq => (h.window q hq).2) (by omega)
  rw [UInt32.le_iff_toNat_le, h.size, h.max, UInt32.toNat_ofNat_of_lt' (show _ < 2 ^ 32 by omega)]
  omega

theorem create (isn : SequenceNumber32) (maxBuffer : UInt32) (slack : ℕ) :
    Placed (isn - UInt32.ofNat (2 ^ 31)) maxBuffer slack (TcpRxBuffer.create isn maxBuffer) [] (2 ^ 31) (2 ^ 31) :=
  ⟨rfl, ⟨List.Pairwise.nil, List.forall_mem_nil _⟩, rfl, (UInt32.sub_add_cancel _ _).symm, rfl, le_rfl,
    fun _ hi hi' => absurd hi' (not_lt.mpr hi), not_held_nil, List.forall_mem_nil _,
    List.forall_mem_nil _, rfl, rfl⟩

end Placed

theorem placed_of_steps {isn : SequenceNumber32} {maxBuffer : UInt32} (hmax : maxBuffer.toNat < 2 ^ 30) {s : TcpRxBuffer}
    (hs : TcpRxBuffer.Steps (fun s c => c.InRange s ∧ c.Trimmed s) (.create isn maxBuffer) s) :
    ∃ l r n, 2 ^ 31 ≤ r ∧ Placed (isn - UInt32.ofNat (2 ^ 31)) maxBuffer 0 s l r n := by
  induction hs with
  | refl => exact ⟨[], _, _, le_rfl, Placed.create isn maxBuffer 0⟩
  | tail _ hstep ih =>
    obtain ⟨l, r, n, hr, h⟩ := ih
    obtain ⟨c, ⟨hin, htrim⟩, hc⟩ := hstep
    obtain ⟨s', l', r', n', hs', h', hle, -⟩ := h.step hmax hr hin htrim
    obtain rfl := Option.some.inj (hs'.symm.trans hc)
    exact ⟨l', r', n', hr.trans hle, h'⟩

/-- **The bound of the buffer**, in every run of segments in range that end within the receive window or are trimmed to it:
no assertion fails, the size is at most that of the buffer, and `MaxRxSequence` does not decrease. -/
theorem size_le_maxBuffer (isn : SequenceNumber32) (maxBuffer : UInt32) (hmax : maxBuffer.toNat < 2 ^ 30) (s : TcpRxBuffer)
    (hs : TcpRxBuffer.Steps (fun s c => c.InRange s ∧ c.Trimmed s) (.create isn maxBuffer) s) :
    s.size ≤ s.maxBuffer ∧ s.maxBuffer = maxBuffer ∧ ∀ c : RxStep, c.InRange s → c.Trimmed s →
      ∃ s', s.step c = some s' ∧ le s.maxRxSequence s'.maxRxSequence = true := by
  obtain ⟨l, r, n, hr, h⟩ := placed_of_steps hmax hs
  refine ⟨h.size_le hmax, h.max, fun c hin htrim => ?_⟩
  obtain ⟨s', l', r', n', hs', h', hle, hle'⟩ := h.step hmax hr hin htrim
  refine ⟨s', hs', ?_⟩
  rw [h.maxRxSequence_eq (by omega), h'.maxRxSequence_eq (by omega), le_seqAt (by omega) (by omega), decide_eq_true_eq]
  omega

/-- Two bytes that come before the two that they follow on. -/
theorem size_le_maxBuffer_outOfOrder :
    (TcpRxBuffer.create 0xfffffffe 4).step (.add [1, 2] 0) = some
        { TcpRxBuffer.create 0xfffffffe 4 with sackList := [(0, 2)], size := 2, data := [(0, [1, 2])] } ∧
      ∃ s' : TcpRxBuffer, TcpRxBuffer.step
        { TcpRxBuffer.create 0xfffffffe 4 with sackList := [(0, 2)], size := 2, data := [(0, [1, 2])] }
          (.add [3, 4] 0xfffffffe) = some s' ∧ le 2 s'.maxRxSequence = true := by
  have hstep : (TcpRxBuffer.create 0xfffffffe 4).step (.add [1, 2] 0) = some
      { TcpRxBuffer.create 0xfffffffe 4 with sackList := [(0, 2)], size := 2, data := [(0, [1, 2])] } := rfl
  refine ⟨hstep, (size_le_maxBuffer 0xfffffffe 4 (by decide) _ (.single ⟨_, ⟨?_, ?_⟩, hstep⟩)).2.2 (.add [3, 4] 0xfffffffe) ?_ ?_⟩
  · exact ⟨by decide, by decide⟩
  · exact .inl (by decide)
  · exact ⟨by decide, by decide⟩
  · exact .inl (by decide)

/-- **One segment is too much**: it is not trimmed when nothing is kept. -/
theorem not_size_le_maxBuffer : ¬ ∀ (isn : SequenceNumber32) (maxBuffer : UInt32), maxBuffer.toNat < 2 ^ 30 → ∀ s,
    TcpRxBuffer.Steps (fun s c => c.InRange s) (.create isn maxBuffer) s → s.size ≤ s.maxBuffer := by
  intro h
  have hstep : (TcpRxBuffer.create 0 4).step (.add [1, 2, 3, 4, 5, 6, 7, 8] 0) = some
      { TcpRxBuffer.create 0 4 with
        nextRxSeq := 8, size := 8, availBytes := 8, data := [(0, [1, 2, 3, 4, 5, 6, 7, 8])] } := rfl
  have hle := h 0 4 (by decide) _ (.single ⟨.add [1, 2, 3, 4, 5, 6, 7, 8] 0, ⟨by decide, by decide⟩, hstep⟩)
  exact absurd hle (by decide)

end Ns3Ndn.Internet
