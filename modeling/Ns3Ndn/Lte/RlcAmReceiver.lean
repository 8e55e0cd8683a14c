import Ns3Ndn.Lib.Reorder
import Ns3Ndn.Lib.Run
import Ns3Ndn.Lte.SequenceNumber10

/-!
# The receiving side of LTE RLC AM

`lte/model/lte-rlc-am.cc`: data PDUs arrive in any order and more than once, wait in `m_rxonBuffer` for the ones before them, and
go to `ReassembleAndDeliver` in order. `VR(R)` is the next one, `VR(MS)` the first one that a status report would give as
missing, and a timer moves `VR(MS)` on when it expires.

* `InWindow`: each PDU is less than 512 away from the next one when it arrives;
* **`run_inOrder`**: what was delivered is every PDU before the first one that did not arrive.
-/

namespace Ns3Ndn.Lte

open OrdLib ReorderLib SequenceNumber10

structure PduBuffer (α : Type) where
  byteSegments : List α
  pduComplete : Bool

/-- The receiving side of `LteRlcAm`. What was passed to `ReassembleAndDeliver` is in `delivered`. -/
structure RlcAmReceiver (α : Type) where
  windowSize : ℕ := 512
  vrR : SequenceNumber10 := ofValue 0
  vrMr : SequenceNumber10 := (ofValue 0).add 512
  vrX : SequenceNumber10 := ofValue 0
  vrMs : SequenceNumber10 := ofValue 0
  vrH : SequenceNumber10 := ofValue 0
  rxonBuffer : OrdMap ℕ (PduBuffer α) := .empty
  reorderingTimer : Bool := false
  statusPduRequested : Bool := false
  statusPduBufferSize : ℕ := 0
  delivered : List α := []

namespace RlcAmReceiver

variable {α : Type} (s : RlcAmReceiver α)

def setWindowBase : RlcAmReceiver α :=
  { s with vrR := s.vrR.setModulusBase s.vrR.value, vrMr := s.vrMr.setModulusBase s.vrR.value }

def isInsideReceivingWindow (seqNumber : SequenceNumber10) : Option Bool :=
  let s := s.setWindowBase
  let seqNumber := seqNumber.setModulusBase s.vrR.value
  (s.vrR.le seqNumber).bind fun above => if above then seqNumber.lt s.vrMr else some false

/-- A PDU that is in the buffer already is left as it is, with the assertion that it has one segment. -/
def placeInBuffer (seqNumber : SequenceNumber10) (p : α) : Option (RlcAmReceiver α) :=
  match s.rxonBuffer.find? seqNumber.value with
  | some buffered => if buffered.byteSegments.length = 1 then some s else none
  | none => some { s with rxonBuffer := s.rxonBuffer.insert seqNumber.value ⟨[p], true⟩ }

def updateVrH (seqNumber : SequenceNumber10) : Option (RlcAmReceiver α) :=
  (seqNumber.ge s.vrH).map fun beyond => if beyond then { s with vrH := seqNumber.add 1 } else s

/-- The loop over `m_vrMs`. It fails at the assertion when it comes back to `firstVrMs`, so at most 1024 turns are possible. -/
def skipReceived (buffer : OrdMap ℕ (PduBuffer α)) (firstVrMs : ℕ) : ℕ → SequenceNumber10 → Option SequenceNumber10
  | 0, _ => none
  | fuel + 1, vrMs =>
    if (buffer.find? vrMs.value).any PduBuffer.pduComplete then
      if firstVrMs ≠ vrMs.succ.value then skipReceived buffer firstVrMs fuel vrMs.succ else none
    else some vrMs

def updateVrMs : Option (RlcAmReceiver α) :=
  (skipReceived s.rxonBuffer s.vrMs.value 1024 s.vrMs).map fun vrMs => { s with vrMs := vrMs }

/-- A turn of the loop over `m_vrR`, for a PDU with one segment. -/
def deliverFirst (p : α) : RlcAmReceiver α :=
  let vrR := s.vrR.succ.setModulusBase s.vrR.succ.value
  { s with
    delivered := s.delivered ++ [p]
    rxonBuffer := s.rxonBuffer.erase s.vrR.value
    vrR := vrR
    vrX := s.vrX.setModulusBase vrR.value
    vrMs := s.vrMs.setModulusBase vrR.value
    vrH := s.vrH.setModulusBase vrR.value }

/-- The loop over `m_vrR`. -/
def deliverReceived (firstVrR : ℕ) : ℕ → RlcAmReceiver α → Option (RlcAmReceiver α)
  | 0, _ => none
  | fuel + 1, s =>
    match s.rxonBuffer.find? s.vrR.value with
    | some ⟨segments, true⟩ =>
      match segments with
      | [p] => if firstVrR ≠ (s.deliverFirst p).vrR.value then deliverReceived firstVrR fuel (s.deliverFirst p) else none
      | _ => none
    | _ => some s

def updateVrR (seqNumber : SequenceNumber10) : Option (RlcAmReceiver α) :=
  if seqNumber.value = s.vrR.value ∧ (s.rxonBuffer.find? seqNumber.value).any PduBuffer.pduComplete then
    (deliverReceived s.vrR.value 1024 s).map fun s => { s with vrMr := s.vrR.add s.windowSize }
  else some s

/-- The timer is stopped when `VR(X)` is `VR(R)` or has left the window. -/
def stopReordering : Option (RlcAmReceiver α) :=
  if s.reorderingTimer then
    if s.vrX.value = s.vrR.value then some { s with reorderingTimer := false }
    else (s.isInsideReceivingWindow s.vrX).map fun inside =>
      { s.setWindowBase with reorderingTimer := inside || s.vrX.value = s.vrMr.value }
  else some s

def startReordering : Option (RlcAmReceiver α) :=
  if s.reorderingTimer then some s
  else (s.vrH.gt s.vrR).map fun missing => if missing then { s with reorderingTimer := true, vrX := s.vrH } else s

def requestStatus (pollingBit : Bool) : RlcAmReceiver α :=
  if pollingBit then { s with statusPduRequested := true, statusPduBufferSize := 4 } else s

def receiveDataPdu (sequenceNumber : SequenceNumber10) (pollingBit : Bool) (p : α) : Option (RlcAmReceiver α) :=
  let seqNumber := sequenceNumber.setModulusBase s.vrR.value
  let s := s.requestStatus pollingBit
  (s.isInsideReceivingWindow seqNumber).bind fun inside =>
    if inside then
      (s.setWindowBase.placeInBuffer seqNumber p).bind fun s => (s.updateVrH seqNumber).bind fun s => s.updateVrMs.bind fun s =>
        (s.updateVrR seqNumber).bind fun s => s.stopReordering.bind startReordering
    else some s.setWindowBase

/-- `ExpireReorderingTimer`. The event is no longer pending when it runs. -/
def expireReorderingTimer : Option (RlcAmReceiver α) :=
  (skipReceived s.rxonBuffer s.vrX.value 1024 s.vrX).bind fun vrMs => (s.vrH.gt vrMs).map fun missing =>
    { s with
      vrMs := vrMs
      reorderingTimer := missing
      vrX := if missing then s.vrH else s.vrX
      statusPduRequested := true }

end RlcAmReceiver

/-- What happens to the receiving side. -/
inductive RlcAmEvent (α : Type) where
  | data (number : ℕ) (pollingBit : Bool) (p : α)
  | expire

namespace RlcAmReceiver

variable {α : Type}

/-- The timer can expire only when it runs. -/
def step (s : RlcAmReceiver α) : RlcAmEvent α → Option (RlcAmReceiver α)
  | .data number pollingBit p => s.receiveDataPdu (ofValue number) pollingBit p
  | .expire => if s.reorderingTimer then s.expireReorderingTimer else some s

def run (events : List (RlcAmEvent α)) : Option (RlcAmReceiver α) := events.foldlM step {}

/-! ## What arrived -/

/-- One arrival more. The first copy of each PDU counts. -/
def arrive (received : OrdMap ℕ α) : RlcAmEvent α → OrdMap ℕ α
  | .data number _ p => received.insertNew number p
  | .expire => received

def received (events : List (RlcAmEvent α)) : OrdMap ℕ α := events.foldl arrive .empty

def expected (received : OrdMap ℕ α) : ℕ := firstMissing 0 received.toList

/-- An event is in the window if its PDU is at most 512 behind the next one, and less than 512 ahead. -/
def Near (received : OrdMap ℕ α) : RlcAmEvent α → Prop
  | .data number _ _ => expected received ≤ number + 512 ∧ number < expected received + 512
  | .expire => True

def InWindow (events : List (RlcAmEvent α)) : Prop := ∀ pre e, pre ++ [e] <+: events → Near (received pre) e

instance (received : OrdMap ℕ α) : (e : RlcAmEvent α) → Decidable (Near received e)
  | .data _ _ _ => inferInstanceAs (Decidable (_ ∧ _))
  | .expire => .isTrue trivial

instance (events : List (RlcAmEvent α)) : Decidable (InWindow events) :=
  decidable_of_iff _ RunLib.forall_step_iff_forall_fin.symm

/-! ## The state by the numbers of the PDUs -/

def Holds (received : OrdMap ℕ α) (k : ℕ) (buffer : OrdMap ℕ (PduBuffer α)) : Prop :=
  ∀ v b, buffer.find? v = some b ↔ ∃ n p, k ≤ n ∧ received.find? n = some p ∧ v = n % 1024 ∧ b = ⟨[p], true⟩

/-- The window variables, compared from PDU `k` on. -/
structure Windows (s : RlcAmReceiver α) (k ms h x : ℕ) : Prop where
  vrR : s.vrR = numbered k k
  vrMs : s.vrMs = numbered k ms
  vrH : s.vrH = numbered k h
  vrX : s.vrX = numbered k x

/-- PDUs before `k` were delivered and the others are in the buffer. -/
structure Split (received : OrdMap ℕ α) (s : RlcAmReceiver α) (k : ℕ) : Prop where
  delivered : s.delivered.map some = (List.range k).map received.find?
  holds : Holds received k s.rxonBuffer

/-- **The state is that of the numbers**: `k` is the next PDU, `ms` the first one to report as missing, and `h` comes after
all that arrived. -/
structure Tracks (received : OrdMap ℕ α) (s : RlcAmReceiver α) (k ms h x : ℕ) : Prop where
  windowSize : s.windowSize = 512
  windows : Windows s k ms h x
  vrMr : s.vrMr = numbered k (k + 512)
  split : Split received s k
  next : received.find? k = none
  missing : received.find? ms = none
  below : ∀ n p, received.find? n = some p → n < h
  order : k ≤ ms ∧ ms ≤ h ∧ h ≤ k + 512
  timer : s.reorderingTimer = true → k < x ∧ x ≤ h

variable {buffer : OrdMap ℕ (PduBuffer α)}

theorem find?_of_holds {m : OrdMap ℕ α} {k n : ℕ} (h : Holds m k buffer)
    (htop : ∀ n p, m.find? n = some p → n < k + 512) (hn : k ≤ n) (hn' : n < k + 1024) :
    buffer.find? (n % 1024) = (m.find? n).map fun p => ⟨[p], true⟩ := by
  cases hfind : m.find? n with
  | some p => exact (h _ _).mpr ⟨n, p, hn, hfind, rfl, rfl⟩
  | none =>
    rw [Option.map_none, Option.eq_none_iff_forall_ne_some]
    intro b hb
    obtain ⟨n', p, hkn, hp, hmod, -⟩ := (h _ _).mp hb
    have hlt := htop n' p hp
    have heq : n' = n := by omega
    rw [heq, hfind] at hp
    exact absurd hp (by simp)

/-! ## The loops -/

/-- **The loop over `VR(MS)`** ends at the first PDU that did not arrive. -/
theorem skipReceived_eq {m : OrdMap ℕ α} {k first n : ℕ} (h : Holds m k buffer)
    (htop : ∀ n p, m.find? n = some p → n < k + 512) (hk : k ≤ first) (hfirst : first ≤ n) (hn : n ≤ k + 512) {fuel : ℕ}
    (hfuel : k + 512 < n + fuel) :
    skipReceived buffer (first % 1024) fuel (numbered k n) = some (numbered k (firstMissing n m.toList)) := by
  induction fuel generalizing n with
  | zero => omega
  | succ fuel ih =>
    have hbuf := find?_of_holds h htop (hk.trans hfirst) (by omega : n < k + 1024)
    rw [skipReceived, value_numbered, hbuf]
    cases hfind : m.find? n with
    | none => simp [firstMissing_of_none hfind]
    | some p =>
      have hlt := htop n p hfind
      have hne : first % 1024 ≠ (n + 1) % 1024 := by omega
      have hsome : m.find? n ≠ none := by rw [hfind]; exact Option.some_ne_none p
      rw [Option.map_some, if_pos (by rfl), succ_numbered, value_numbered, if_pos hne, ih (by omega) (by omega) (by omega),
        ← firstMissing_of_some hsome]

theorem Holds.erase {m : OrdMap ℕ α} {k : ℕ} (h : Holds m k buffer)
    (htop : ∀ n p, m.find? n = some p → n < k + 1024) : Holds m (k + 1) (buffer.erase (k % 1024)) := by
  intro v b
  rw [OrdMap.find?_erase]
  split_ifs with hv
  · refine ⟨fun hb => absurd hb (by simp), ?_⟩
    rintro ⟨n, p, hkn, hp, hmod, -⟩
    have hlt := htop n p hp
    omega
  · rw [h]
    constructor
    · rintro ⟨n, p, hkn, hp, hmod, hb⟩
      refine ⟨n, p, ?_, hp, hmod, hb⟩
      rcases hkn.eq_or_lt with rfl | hlt
      · exact absurd hmod.symm hv
      · exact hlt
    · rintro ⟨n, p, hkn, hp, hmod, hb⟩
      exact ⟨n, p, (Nat.le_succ k).trans hkn, hp, hmod, hb⟩

theorem Windows.deliverFirst {s : RlcAmReceiver α} {k ms h x : ℕ} (hw : Windows s k ms h x) (p : α) :
    Windows (s.deliverFirst p) (k + 1) ms h x := by
  constructor <;> simp [RlcAmReceiver.deliverFirst, hw.vrR, hw.vrMs, hw.vrH, hw.vrX]

theorem Split.deliverFirst {m : OrdMap ℕ α} {s : RlcAmReceiver α} {k ms h x : ℕ} {p : α} (hs : Split m s k)
    (hw : Windows s k ms h x) (htop : ∀ n p, m.find? n = some p → n < k + 1024) (hp : m.find? k = some p) :
    Split m (s.deliverFirst p) (k + 1) where
  delivered := by
    rw [RlcAmReceiver.deliverFirst, List.map_append, hs.delivered, List.range_succ, List.map_append, List.map_singleton,
      List.map_singleton, hp]
  holds := by
    have herase := hs.holds.erase htop
    rw [RlcAmReceiver.deliverFirst, hw.vrR]
    exact herase

/-- **The loop over `VR(R)`** delivers up to the first PDU that did not arrive, and leaves the rest of the state. -/
theorem deliverReceived_spec {m : OrdMap ℕ α} {s : RlcAmReceiver α} {first k ms h x : ℕ} (hs : Split m s k)
    (hw : Windows s k ms h x) (htop : ∀ n p, m.find? n = some p → n < first + 512) (hfirst : first ≤ k) (hk : k ≤ first + 512)
    {fuel : ℕ} (hfuel : first + 512 < k + fuel) :
    ∃ s', deliverReceived (first % 1024) fuel s = some s' ∧ Split m s' (firstMissing k m.toList) ∧
      Windows s' (firstMissing k m.toList) ms h x ∧ s'.windowSize = s.windowSize ∧ s'.reorderingTimer = s.reorderingTimer := by
  induction fuel generalizing s k with
  | zero => omega
  | succ fuel ih =>
    have htop' : ∀ n p, m.find? n = some p → n < k + 512 := fun n p hp => (htop n p hp).trans_le (by omega)
    have hbuf := find?_of_holds hs.holds htop' le_rfl (by omega : k < k + 1024)
    rw [deliverReceived, hw.vrR, value_numbered, hbuf]
    cases hfind : m.find? k with
    | none => exact ⟨s, rfl, by rwa [firstMissing_of_none hfind], by rwa [firstMissing_of_none hfind], rfl, rfl⟩
    | some p =>
      have hlt := htop k p hfind
      have hsome : m.find? k ≠ none := by rw [hfind]; exact Option.some_ne_none p
      have hw' := hw.deliverFirst p
      have hs' := hs.deliverFirst hw (fun n p hp => (htop' n p hp).trans (by omega)) hfind
      have hne : first % 1024 ≠ (k + 1) % 1024 := by omega
      obtain ⟨s', hrun, hsplit, hwin, hsize, htimer⟩ := ih hs' hw' (by omega) (by omega) (by omega)
      rw [firstMissing_of_some hsome]
      refine ⟨s', ?_, hsplit, hwin, hsize, htimer⟩
      show (if first % 1024 ≠ (s.deliverFirst p).vrR.value then _ else none) = _
      rw [hw'.vrR, value_numbered, if_pos hne, hrun]

/-! ## The parts of a reception -/

section Parts

variable {m : OrdMap ℕ α} {s : RlcAmReceiver α} {k ms h x n : ℕ}

theorem Windows.setWindowBase (hw : Windows s k ms h x) (hmr : s.vrMr = numbered k (k + 512)) : s.setWindowBase = s := by
  have hR : s.vrR.setModulusBase s.vrR.value = s.vrR := by rw [hw.vrR]; rfl
  have hMr : s.vrMr.setModulusBase s.vrR.value = s.vrMr := by rw [hmr, hw.vrR]; rfl
  rw [RlcAmReceiver.setWindowBase, hR, hMr]

theorem Windows.isInside (hw : Windows s k ms h x) (hmr : s.vrMr = numbered k (k + 512)) (base : ℕ) (hn : k ≤ n)
    (hn' : n < k + 1024) : s.isInsideReceivingWindow (numbered base n) = some (decide (n < k + 512)) := by
  rw [isInsideReceivingWindow, hw.setWindowBase hmr, hw.vrR, hmr]
  show ((numbered k k).le (numbered k n)).bind _ = _
  rw [le_numbered le_rfl (by omega) hn hn', decide_eq_true hn, Option.bind_some, if_pos rfl]
  exact lt_numbered hn hn' (by omega) (by omega)

theorem find?_insertNew_of_ne {a : ℕ} (hne : n ≠ a) (p : α) : (m.insertNew n p).find? a = m.find? a := by
  rw [OrdMap.find?_insertNew, if_neg hne, Option.or_none]

/-- Before `k` everything arrived. -/
theorem Split.find?_of_lt (hs : Split m s k) (hn : n < k) : m.find? n ≠ none := by
  have hmem : m.find? n ∈ s.delivered.map some := by
    rw [hs.delivered]
    exact List.mem_map_of_mem (List.mem_range.mpr hn)
  obtain ⟨p, -, hp⟩ := List.mem_map.mp hmem
  rw [← hp]
  exact Option.some_ne_none p

theorem Holds.insert {buffer : OrdMap ℕ (PduBuffer α)} {p : α} (hb : Holds m k buffer) (htop : ∀ n p, m.find? n = some p → n < k + 512)
    (hn : k ≤ n) (hn' : n < k + 512) (hnone : m.find? n = none) :
    Holds (m.insertNew n p) k (buffer.insert (n % 1024) ⟨[p], true⟩) := by
  intro v b
  rw [OrdMap.find?_insert]
  split_ifs with hv
  · constructor
    · rintro ⟨⟩
      refine ⟨n, p, hn, ?_, hv.symm, rfl⟩
      rw [OrdMap.find?_insertNew, hnone, if_pos rfl, Option.none_or]
    · rintro ⟨a, q, ha, hq, hva, rfl⟩
      have han : a = n := by
        by_contra hne
        rw [find?_insertNew_of_ne (Ne.symm hne)] at hq
        have hlt := htop a q hq
        omega
      rw [han, OrdMap.find?_insertNew, hnone, if_pos rfl, Option.none_or] at hq
      rw [Option.some_inj.mp hq]
  · rw [hb]
    constructor
    · rintro ⟨a, q, ha, hq, hva, hb⟩
      exact ⟨a, q, ha, by rw [OrdMap.find?_insertNew, hq, Option.some_or], hva, hb⟩
    · rintro ⟨a, q, ha, hq, hva, hb⟩
      have hne : n ≠ a := fun heq => hv (by rw [hva, heq])
      rw [find?_insertNew_of_ne hne] at hq
      exact ⟨a, q, ha, hq, hva, hb⟩

theorem insertNew_of_find? {p : α} (hsome : m.find? n ≠ none) : m.insertNew n p = m := by
  obtain ⟨q, hq⟩ := Option.ne_none_iff_exists'.mp hsome
  rw [OrdMap.insertNew, hq]

/-- A PDU that was there is left as it is. -/
theorem placeInBuffer_spec {p : α} (hs : Split m s k) (htop : ∀ n p, m.find? n = some p → n < k + 512) (hn : k ≤ n)
    (hn' : n < k + 512) : ∃ buffer, s.placeInBuffer (numbered k n) p = some { s with rxonBuffer := buffer } ∧
      Split (m.insertNew n p) { s with rxonBuffer := buffer } k := by
  have hbuf := find?_of_holds hs.holds htop hn (by omega : n < k + 1024)
  rw [placeInBuffer, value_numbered, hbuf]
  cases hfind : m.find? n with
  | some q =>
    have hsome : m.find? n ≠ none := by rw [hfind]; exact Option.some_ne_none q
    refine ⟨s.rxonBuffer, rfl, ?_⟩
    rw [insertNew_of_find? hsome]
    exact hs
  | none =>
    refine ⟨_, rfl, ?_, hs.holds.insert htop hn hn' hfind⟩
    show s.delivered.map some = _
    rw [hs.delivered]
    refine List.map_congr_left fun a ha => (find?_insertNew_of_ne ?_ p).symm
    have hlt := List.mem_range.mp ha
    omega

theorem updateVrH_spec (hw : Windows s k ms h x) (hn : k ≤ n) (hn' : n < k + 512) (hh : k ≤ h) (hh' : h ≤ k + 512) :
    s.updateVrH (numbered k n) = some { s with vrH := numbered k (max h (n + 1)) } := by
  rw [updateVrH, hw.vrH, ge_numbered hn (by omega) hh (by omega), Option.map_some]
  by_cases hle : h ≤ n
  · rw [decide_eq_true hle, if_pos rfl, add_numbered, Nat.max_eq_right (by omega)]
  · rw [decide_eq_false hle, if_neg Bool.false_ne_true, Nat.max_eq_left (by omega), ← hw.vrH]

theorem updateVrMs_spec (hw : Windows s k ms h x) (hb : Holds m k s.rxonBuffer)
    (htop : ∀ n p, m.find? n = some p → n < k + 512) (hms : k ≤ ms) (hms' : ms ≤ k + 512) :
    s.updateVrMs = some { s with vrMs := numbered k (firstMissing ms m.toList) } := by
  rw [updateVrMs, hw.vrMs, value_numbered, skipReceived_eq hb htop hms le_rfl hms' (by omega), Option.map_some]

/-- `VR(R)` moves only when its own PDU arrives. -/
theorem updateVrR_spec (hs : Split m s k) (hw : Windows s k ms h x) (hsize : s.windowSize = 512)
    (hmr : s.vrMr = numbered k (k + 512)) (htop : ∀ n p, m.find? n = some p → n < k + 512) (hn : k ≤ n) (hn' : n < k + 512)
    (hsome : m.find? n ≠ none) (hnone : n ≠ k → m.find? k = none) :
    ∃ s', s.updateVrR (numbered k n) = some s' ∧ Split m s' (firstMissing k m.toList) ∧
      Windows s' (firstMissing k m.toList) ms h x ∧ s'.vrMr = numbered (firstMissing k m.toList) (firstMissing k m.toList + 512) ∧
      s'.windowSize = 512 ∧ s'.reorderingTimer = s.reorderingTimer := by
  rw [updateVrR, hw.vrR, value_numbered, value_numbered]
  by_cases hnk : n = k
  · subst hnk
    obtain ⟨p, hp⟩ := Option.ne_none_iff_exists'.mp hsome
    have hbuf := find?_of_holds hs.holds htop le_rfl (by omega : n < n + 1024)
    have hany : (s.rxonBuffer.find? (n % 1024)).any PduBuffer.pduComplete = true := by rw [hbuf, hp]; rfl
    obtain ⟨s', hrun, hsplit, hwin, hsize', htimer⟩ := deliverReceived_spec hs hw htop le_rfl (by omega)
      (by omega : n + 512 < n + 1024)
    rw [if_pos ⟨rfl, hany⟩, hrun, Option.map_some]
    refine ⟨_, rfl, ⟨hsplit.delivered, hsplit.holds⟩, ⟨hwin.vrR, hwin.vrMs, hwin.vrH, hwin.vrX⟩, ?_, ?_, htimer⟩
    · show s'.vrR.add s'.windowSize = _
      rw [hwin.vrR, hsize', hsize, add_numbered]
    · exact hsize'.trans hsize
  · have hne : n % 1024 ≠ k % 1024 := by omega
    rw [if_neg fun hand => hne hand.1, firstMissing_of_none (hnone hnk)]
    exact ⟨s, rfl, hs, hw, hmr, hsize, rfl⟩

theorem stopReordering_spec (hw : Windows s k ms h x) (hmr : s.vrMr = numbered k (k + 512))
    (hx : s.reorderingTimer = true → k < x + 512 ∧ x ≤ k + 512) :
    s.stopReordering = some { s with reorderingTimer := s.reorderingTimer && decide (k < x) } := by
  have hX : s.vrX.value = x % 1024 := by rw [hw.vrX]; rfl
  have hR : s.vrR.value = k % 1024 := by rw [hw.vrR]; rfl
  have hMr : s.vrMr.value = (k + 512) % 1024 := by rw [hmr]; rfl
  rw [stopReordering]
  cases htimer : s.reorderingTimer with
  | false => rw [if_neg Bool.false_ne_true, Bool.false_and, ← htimer]
  | true =>
    obtain ⟨hx, hx'⟩ := hx htimer
    rw [if_pos rfl, hX, hR]
    by_cases hxk : x % 1024 = k % 1024
    · have hle : ¬ k < x := by omega
      rw [if_pos hxk, decide_eq_false hle, Bool.and_false]
    · rw [if_neg hxk, hw.setWindowBase hmr, hMr]
      by_cases hlt : k < x
      · have hinside : s.isInsideReceivingWindow s.vrX = some (decide (x < k + 512)) := by
          rw [hw.vrX]
          exact hw.isInside hmr k hlt.le (by omega)
        have hor : (decide (x < k + 512) || decide (x % 1024 = (k + 512) % 1024)) = true := by
          rw [Bool.or_eq_true, decide_eq_true_eq, decide_eq_true_eq]
          omega
        rw [hinside, Option.map_some, hor, decide_eq_true hlt, Bool.true_and]
      · -- `VR(X)` is behind the window, a turn higher in the order of the code.
        have hinside : s.isInsideReceivingWindow s.vrX = some (decide (x + 1024 < k + 512)) := by
          rw [hw.vrX, ← numbered_add_turn]
          exact hw.isInside hmr k (by omega) (by omega)
        have hor : (decide (x + 1024 < k + 512) || decide (x % 1024 = (k + 512) % 1024)) = false := by
          rw [Bool.or_eq_false_iff, decide_eq_false_iff_not, decide_eq_false_iff_not]
          omega
        rw [hinside, Option.map_some, hor, decide_eq_false hlt, Bool.and_false]

theorem startReordering_spec (hw : Windows s k ms h x) (hh : k ≤ h) (hh' : h ≤ k + 512) :
    s.startReordering = some (if s.reorderingTimer = false ∧ k < h then
      { s with reorderingTimer := true, vrX := numbered k h } else s) := by
  rw [startReordering, hw.vrH, hw.vrR, gt_numbered hh (by omega) le_rfl (by omega), Option.map_some]
  cases s.reorderingTimer with
  | true => simp
  | false => by_cases hlt : k < h <;> simp [hlt]

end Parts

/-! ## Steps -/

section Steps

variable {m : OrdMap ℕ α} {s : RlcAmReceiver α} {k ms h x n : ℕ}

variable (ht : Tracks m s k ms h x)

include ht

theorem Tracks.below_window (n : ℕ) (p : α) (hp : m.find? n = some p) : n < k + 512 :=
  (ht.below n p hp).trans_le ht.order.2.2

/-- The next PDU is the first one that did not arrive. -/
theorem Tracks.expected : expected m = k :=
  firstMissing_eq (Nat.zero_le k) (fun _ _ hj => ht.split.find?_of_lt hj) ht.next

theorem Tracks.requestStatus (pollingBit : Bool) : Tracks m (s.requestStatus pollingBit) k ms h x := by
  cases pollingBit with
  | false => exact ht
  | true =>
    exact ⟨ht.windowSize, ⟨ht.windows.vrR, ht.windows.vrMs, ht.windows.vrH, ht.windows.vrX⟩, ht.vrMr,
      ⟨ht.split.delivered, ht.split.holds⟩, ht.next, ht.missing, ht.below, ht.order, ht.timer⟩

theorem Tracks.receive_behind (hn : k ≤ n + 512) (hn' : n < k) (pollingBit : Bool) (p : α) :
    ∃ s', s.receiveDataPdu (ofValue n) pollingBit p = some s' ∧ Tracks (m.insertNew n p) s' k ms h x := by
  have ht' := ht.requestStatus pollingBit
  have hseq : (ofValue n).setModulusBase s.vrR.value = numbered k (n + 1024) := by
    rw [ht.windows.vrR, numbered_add_turn]
    rfl
  have hinside : (s.requestStatus pollingBit).isInsideReceivingWindow (numbered k (n + 1024)) = some false := by
    rw [ht'.windows.isInside ht'.vrMr k (by omega) (by omega)]
    exact congrArg some (decide_eq_false (by omega))
  refine ⟨s.requestStatus pollingBit, ?_, ?_⟩
  · rw [receiveDataPdu, hseq, hinside]
    show some (s.requestStatus pollingBit).setWindowBase = _
    rw [ht'.windows.setWindowBase ht'.vrMr]
  · rw [insertNew_of_find? (ht.split.find?_of_lt hn')]
    exact ht'

theorem Tracks.receive_inside (hn : k ≤ n) (hn' : n < k + 512) (pollingBit : Bool) (p : α) :
    ∃ s' k' ms' x', s.receiveDataPdu (ofValue n) pollingBit p = some s' ∧ Tracks (m.insertNew n p) s' k' ms' (max h (n + 1)) x' := by
  have ht' := ht.requestStatus pollingBit
  obtain ⟨hkms, hmsh, hhk⟩ := ht.order
  have hseq : (ofValue n).setModulusBase s.vrR.value = numbered k n := by
    rw [ht.windows.vrR]
    rfl
  have hinside : (s.requestStatus pollingBit).isInsideReceivingWindow (numbered k n) = some true := by
    rw [ht'.windows.isInside ht'.vrMr k hn (by omega)]
    exact congrArg some (decide_eq_true hn')
  rw [receiveDataPdu, hseq, hinside, Option.bind_some, if_pos rfl, ht'.windows.setWindowBase ht'.vrMr]
  generalize s.requestStatus pollingBit = s at ht'
  -- The PDU goes to the buffer.
  obtain ⟨buffer, hplace, hsplit⟩ := placeInBuffer_spec (p := p) ht'.split ht'.below_window hn hn'
  have hbelow : ∀ a q, (m.insertNew n p).find? a = some q → a < max h (n + 1) := by
    intro a q hq
    by_cases hna : n = a
    · omega
    · rw [find?_insertNew_of_ne hna] at hq
      exact lt_max_of_lt_left (ht'.below a q hq)
  have htop : ∀ a q, (m.insertNew n p).find? a = some q → a < k + 512 := fun a q hq => (hbelow a q hq).trans_le (by omega)
  obtain ⟨w, hw⟩ := Reorder.find?_insertNew_self m n p
  have hsome : (m.insertNew n p).find? n ≠ none := by rw [hw]; exact Option.some_ne_none w
  have hnone : n ≠ k → (m.insertNew n p).find? k = none := fun hne => by rw [find?_insertNew_of_ne hne, ht'.next]
  rw [hplace, Option.bind_some]
  generalize m.insertNew n p = m' at *
  have hw1 : Windows { s with rxonBuffer := buffer } k ms h x :=
    ⟨ht'.windows.vrR, ht'.windows.vrMs, ht'.windows.vrH, ht'.windows.vrX⟩
  -- `VR(H)` and `VR(MS)`.
  rw [updateVrH_spec hw1 hn hn' (by omega) hhk, Option.bind_some]
  have hw2 : Windows { s with rxonBuffer := buffer, vrH := numbered k (max h (n + 1)) } k ms (max h (n + 1)) x :=
    ⟨ht'.windows.vrR, ht'.windows.vrMs, rfl, ht'.windows.vrX⟩
  rw [updateVrMs_spec hw2 hsplit.holds htop hkms (by omega), Option.bind_some]
  have hms' := le_firstMissing ms m'.toList
  have hms'' : firstMissing ms m'.toList ≤ max h (n + 1) :=
    firstMissing_le (by omega) fun e he => hbelow e.1 e.2 (m'.mem_toList.mp he)
  have hmissing := find?_firstMissing ms m'
  generalize firstMissing ms m'.toList = ms' at *
  -- `VR(R)`, which does not pass `VR(MS)`.
  have hw3 : Windows { s with rxonBuffer := buffer, vrH := numbered k (max h (n + 1)), vrMs := numbered k ms' } k ms'
      (max h (n + 1)) x := ⟨ht'.windows.vrR, rfl, rfl, ht'.windows.vrX⟩
  obtain ⟨s4, hrun, hsplit4, hw4, hmr4, hsize4, htimer4⟩ := updateVrR_spec
    (s := { s with rxonBuffer := buffer, vrH := numbered k (max h (n + 1)), vrMs := numbered k ms' })
    ⟨hsplit.delivered, hsplit.holds⟩ hw3 ht'.windowSize ht'.vrMr htop hn hn' hsome hnone
  rw [hrun, Option.bind_some]
  have hk' := le_firstMissing k m'.toList
  have hk'' : firstMissing k m'.toList ≤ ms' := by
    by_contra hlt
    exact find?_of_lt_firstMissing (by omega) (Nat.not_le.mp hlt) hmissing
  have hnext := find?_firstMissing k m'
  generalize firstMissing k m'.toList = k' at *
  -- The timer.
  have hx : s4.reorderingTimer = true → k < x ∧ x ≤ h := fun h4 => ht'.timer (htimer4.symm.trans h4)
  rw [stopReordering_spec hw4 hmr4 fun h4 => by have := hx h4; omega, Option.bind_some]
  rw [startReordering_spec (s := { s4 with reorderingTimer := s4.reorderingTimer && decide (k' < x) })
    ⟨hw4.vrR, hw4.vrMs, hw4.vrH, hw4.vrX⟩ (by omega) (by omega)]
  split_ifs with hstart
  · exact ⟨_, k', ms', max h (n + 1), rfl, hsize4, ⟨hw4.vrR, hw4.vrMs, hw4.vrH, rfl⟩, hmr4,
      ⟨hsplit4.delivered, hsplit4.holds⟩, hnext, hmissing, hbelow, ⟨hk'', hms'', by omega⟩, fun _ => ⟨hstart.2, le_rfl⟩⟩
  · refine ⟨_, k', ms', x, rfl, hsize4, ⟨hw4.vrR, hw4.vrMs, hw4.vrH, hw4.vrX⟩, hmr4,
      ⟨hsplit4.delivered, hsplit4.holds⟩, hnext, hmissing, hbelow, ⟨hk'', hms'', by omega⟩, fun hrunning => ?_⟩
    have hand := (Bool.and_eq_true _ _).mp hrunning
    have hlt := of_decide_eq_true hand.2
    have hle := hx hand.1
    exact ⟨hlt, by omega⟩

theorem Tracks.expire (htimer : s.reorderingTimer = true) :
    ∃ s' ms' x', s.expireReorderingTimer = some s' ∧ Tracks m s' k ms' h x' := by
  obtain ⟨hkx, hxh⟩ := ht.timer htimer
  obtain ⟨hkms, hmsh, hhk⟩ := ht.order
  have hms' := le_firstMissing x m.toList
  have hms'' : firstMissing x m.toList ≤ h := firstMissing_le hxh fun e he => ht.below e.1 e.2 (m.mem_toList.mp he)
  have hmissing := find?_firstMissing x m
  rw [expireReorderingTimer, ht.windows.vrX, value_numbered,
    skipReceived_eq ht.split.holds ht.below_window hkx.le le_rfl (by omega) (by omega), Option.bind_some, ht.windows.vrH]
  generalize firstMissing x m.toList = ms' at *
  rw [gt_numbered (by omega) (by omega) (by omega) (by omega), Option.map_some]
  by_cases hlt : ms' < h
  · rw [decide_eq_true hlt, if_pos rfl]
    exact ⟨_, ms', h, rfl, ht.windowSize, ⟨ht.windows.vrR, rfl, rfl, rfl⟩, ht.vrMr, ⟨ht.split.delivered, ht.split.holds⟩, ht.next,
      hmissing, ht.below, ⟨by omega, hms'', hhk⟩, fun _ => ⟨by omega, le_rfl⟩⟩
  · rw [decide_eq_false hlt, if_neg Bool.false_ne_true]
    exact ⟨_, ms', x, rfl, ht.windowSize, ⟨ht.windows.vrR, rfl, rfl, rfl⟩, ht.vrMr, ⟨ht.split.delivered, ht.split.holds⟩, ht.next,
      hmissing, ht.below, ⟨by omega, hms'', hhk⟩, fun hrunning => absurd hrunning Bool.false_ne_true⟩

/-- **One step keeps the numbers**, for an event in the window. -/
theorem Tracks.step (e : RlcAmEvent α) (he : Near m e) :
    ∃ s' k' ms' h' x', s.step e = some s' ∧ Tracks (arrive m e) s' k' ms' h' x' := by
  cases e with
  | data n pollingBit p =>
    rw [Near, ht.expected] at he
    by_cases hn : n < k
    · obtain ⟨s', hs', ht'⟩ := ht.receive_behind he.1 hn pollingBit p
      exact ⟨s', k, ms, h, x, hs', ht'⟩
    · obtain ⟨s', k', ms', x', hs', ht'⟩ := ht.receive_inside (Nat.not_lt.mp hn) he.2 pollingBit p
      exact ⟨s', k', ms', max h (n + 1), x', hs', ht'⟩
  | expire =>
    rw [RlcAmReceiver.step]
    split_ifs with htimer
    · obtain ⟨s', ms', x', hs', ht'⟩ := ht.expire htimer
      exact ⟨s', k, ms', h, x', hs', ht'⟩
    · exact ⟨s, k, ms, h, x, rfl, ht⟩

end Steps

/-! ## Runs -/

theorem tracks_init : Tracks (.empty : OrdMap ℕ α) {} 0 0 0 0 where
  windowSize := rfl
  windows := ⟨rfl, rfl, rfl, rfl⟩
  vrMr := rfl
  split := ⟨rfl, fun v b => by simp⟩
  next := rfl
  missing := rfl
  below := fun n p hp => absurd hp (by simp)
  order := by omega
  timer := fun htimer => absurd htimer Bool.false_ne_true

theorem received_concat (events : List (RlcAmEvent α)) (e : RlcAmEvent α) :
    received (events ++ [e]) = arrive (received events) e := by
  rw [received, List.foldl_append]
  rfl

theorem run_tracks (events : List (RlcAmEvent α)) (h : InWindow events) :
    ∃ s k ms h x, run events = some s ∧ Tracks (received events) s k ms h x := by
  induction events using List.reverseRecOn with
  | nil => exact ⟨{}, 0, 0, 0, 0, rfl, tracks_init⟩
  | append_singleton events e ih =>
    obtain ⟨s, k, ms, top, x, hs, ht⟩ := ih fun pre e' hpre => h pre e' (hpre.trans (List.prefix_append events [e]))
    obtain ⟨s', k', ms', top', x', hs', ht'⟩ := ht.step e (h events e List.prefix_rfl)
    refine ⟨s', k', ms', top', x', ?_, by rwa [received_concat]⟩
    rw [run, List.foldlM_append, ← run, hs]
    show List.foldlM RlcAmReceiver.step s [e] = some s'
    rw [List.foldlM_cons, hs']
    rfl

/-- **The receiver is in order** after the arrivals `m`: `k` is the least PDU that did not arrive, those before it were delivered
once each and in order, the others are in the buffer, and the window variables are in the order of the window. -/
structure InOrder (m : OrdMap ℕ α) (s : RlcAmReceiver α) (k : ℕ) : Prop where
  least : IsLeast {n | m.find? n = none} k
  delivered : s.delivered.map some = (List.range k).map m.find?
  holds : Holds m k s.rxonBuffer
  vrR : s.vrR = numbered k k
  vrR_le_vrMs : s.vrR.le s.vrMs = some true
  vrMs_le_vrH : s.vrMs.le s.vrH = some true
  vrH_le_vrMr : s.vrH.le s.vrMr = some true

theorem Tracks.inOrder {m : OrdMap ℕ α} {s : RlcAmReceiver α} {k ms h x : ℕ} (ht : Tracks m s k ms h x) : InOrder m s k := by
  obtain ⟨hkms, hmsh, hhk⟩ := ht.order
  refine ⟨⟨ht.next, fun n hn => ?_⟩, ht.split.delivered, ht.split.holds, ht.windows.vrR, ?_, ?_, ?_⟩
  · by_contra hlt
    exact ht.split.find?_of_lt (Nat.not_le.mp hlt) hn
  · rw [ht.windows.vrR, ht.windows.vrMs, le_numbered le_rfl (by omega) hkms (by omega), decide_eq_true hkms]
  · rw [ht.windows.vrMs, ht.windows.vrH, le_numbered hkms (by omega) (by omega) (by omega), decide_eq_true hmsh]
  · rw [ht.windows.vrH, ht.vrMr, le_numbered (by omega) (by omega) (by omega) (by omega), decide_eq_true hhk]

/-- **What was delivered is every PDU before the first one that did not arrive**, in order and once each. -/
theorem run_inOrder (events : List (RlcAmEvent α)) (h : InWindow events) :
    ∃ s k, run events = some s ∧ InOrder (received events) s k := by
  obtain ⟨s, k, ms, top, x, hs, ht⟩ := run_tracks events h
  exact ⟨s, k, hs, ht.inOrder⟩

/-- A later PDU, the timer, the first PDU and a copy of it. -/
theorem run_inOrder_late : ∃ s k, run [.data 1 true "b", .expire, .data 0 false "a", .data 0 false "a"] = some s ∧
    InOrder (received [.data 1 true "b", .expire, .data 0 false "a", .data 0 false "a"]) s k :=
  run_inOrder _ (by decide)

end RlcAmReceiver

end Ns3Ndn.Lte
