import Ns3Ndn.Lib.Reorder
import Ns3Ndn.Lib.Run

/-!
# Reordering of received frames

`wifi/model/recipient-block-ack-agreement.cc`: a recipient keeps the MPDUs that arrive ahead of a missing one, and passes
them up in the order of their sequence numbers, which go around modulo 4096. The buffer is a map sorted by the distance
from the start of the window.

A frame beyond the window moves the start to `SN - winSizeB + 1`. The subtraction is in 16 bits and is not reduced modulo
4096, so a frame shortly after the turn of the numbers gives a start above 65000, and the next assertion fails.

* `Agree`: the window, the buffer and what was passed up are those of the numbers without a turn;
* `Fits`: a frame does not move the start over the turn, and there is a buffer;
* **`run_reordered_iff`**: they agree all along a run exactly when all its frames fit.
-/

namespace Ns3Ndn.Wifi

open OrdLib ReorderLib

def SEQNO_SPACE_SIZE : ℕ := 4096

def SEQNO_SPACE_HALF_SIZE : ℕ := SEQNO_SPACE_SIZE / 2

abbrev SequenceNumber := Fin SEQNO_SPACE_SIZE

instance : NeZero SEQNO_SPACE_SIZE := ⟨by decide⟩

/-- `BlockAckAgreement::GetDistance`, with its assertion. -/
def getDistance (seqNumber startingSeqNumber : ℕ) : Option ℕ :=
  if seqNumber < SEQNO_SPACE_SIZE ∧ startingSeqNumber < SEQNO_SPACE_SIZE then
    some ((seqNumber + SEQNO_SPACE_SIZE - startingSeqNumber) % SEQNO_SPACE_SIZE)
  else none

/-! ## The scoreboard -/

structure BlockAckWindow where
  winStart : ℕ
  window : List Bool
  head : ℕ

namespace BlockAckWindow

def init (winStart winSize : ℕ) : BlockAckWindow := ⟨winStart, List.replicate winSize false, 0⟩

variable (w : BlockAckWindow)

def getWinSize : ℕ := w.window.length

def reset (winStart : ℕ) : BlockAckWindow := init winStart w.getWinSize

def setAt (distance : ℕ) : Option BlockAckWindow :=
  if distance < w.getWinSize then some { w with window := w.window.set ((w.head + distance) % w.getWinSize) true } else none

/-- The loop of `Advance`. -/
def clear : ℕ → BlockAckWindow → BlockAckWindow
  | 0, w => w
  | count + 1, w => clear count { w with window := w.window.set w.head false, head := (w.head + 1) % w.getWinSize }

def advance (count : ℕ) : BlockAckWindow :=
  if count ≥ w.getWinSize then w.reset ((w.winStart + count) % SEQNO_SPACE_SIZE)
  else { w.clear count with winStart := (w.winStart + count) % SEQNO_SPACE_SIZE }

end BlockAckWindow

/-! ## The agreement -/

/-- The buffer is a map, as the list of its entries. What was passed to `MacRxMiddle` is in `forwarded`. -/
structure RecipientBlockAckAgreement (α : Type) where
  scoreboard : BlockAckWindow
  winStartB : ℕ
  winSizeB : ℕ
  bufferedMpdus : List (ℕ × α) := []
  forwarded : List (ℕ × α) := []

def compare (winStartB a b : ℕ) : Bool :=
  (a + SEQNO_SPACE_SIZE - winStartB) % SEQNO_SPACE_SIZE < (b + SEQNO_SPACE_SIZE - winStartB) % SEQNO_SPACE_SIZE

/-- `std::map::insert`: nothing happens when there is an entry with an equivalent key. -/
def insertMpdu {α : Type} (winStartB : ℕ) (e : ℕ × α) : List (ℕ × α) → List (ℕ × α)
  | [] => [e]
  | f :: rest =>
    if compare winStartB e.1 f.1 then e :: f :: rest
    else if compare winStartB f.1 e.1 then f :: insertMpdu winStartB e rest
    else f :: rest

/-- The loop of `PassBufferedMpdusUntilFirstLost`: what it passes up, what is left, and the new start. -/
def passUntilFirstLost {α : Type} : ℕ → List (ℕ × α) → List (ℕ × α) × List (ℕ × α) × ℕ
  | winStartB, [] => ([], [], winStartB)
  | winStartB, e :: rest =>
    if e.1 = winStartB then
      let r := passUntilFirstLost ((winStartB + 1) % SEQNO_SPACE_SIZE) rest
      (e :: r.1, r.2)
    else ([], e :: rest, winStartB)

/-- The loop of `PassBufferedMpdusWithSeqNumberLessThan`. -/
def passLessThan {α : Type} (winStartB newWinStartB : ℕ) : List (ℕ × α) → Option (List (ℕ × α) × List (ℕ × α))
  | [] => some ([], [])
  | e :: rest =>
    (getDistance e.1 winStartB).bind fun distance => (getDistance newWinStartB winStartB).bind fun newDistance =>
      if distance < newDistance then (passLessThan winStartB newWinStartB rest).map fun r => (e :: r.1, r.2)
      else some ([], e :: rest)

/-- `newWinStartB` of a frame beyond the window, in `uint16_t`. -/
def winStartFor (seqNumber winSizeB : ℕ) : ℕ := (seqNumber + 2 ^ 16 - winSizeB + 1) % 2 ^ 16

namespace RecipientBlockAckAgreement

variable {α : Type}

def init (bufferSize startingSeq : ℕ) : RecipientBlockAckAgreement α where
  scoreboard := .init startingSeq bufferSize
  winStartB := startingSeq
  winSizeB := bufferSize

variable (s : RecipientBlockAckAgreement α)

def noOldMpdus : Option Unit :=
  s.bufferedMpdus.getLast?.elim (some ()) fun e =>
    (getDistance e.1 s.winStartB).bind fun distance => if distance < SEQNO_SPACE_HALF_SIZE then some () else none

def passBufferedMpdusUntilFirstLost : Option (RecipientBlockAckAgreement α) :=
  s.noOldMpdus.map fun _ =>
    let r := passUntilFirstLost s.winStartB s.bufferedMpdus
    { s with forwarded := s.forwarded ++ r.1, bufferedMpdus := r.2.1, winStartB := r.2.2 }

def passBufferedMpdusWithSeqNumberLessThan (newWinStartB : ℕ) : Option (RecipientBlockAckAgreement α) :=
  s.noOldMpdus.bind fun _ => (passLessThan s.winStartB newWinStartB s.bufferedMpdus).map fun r =>
    { s with forwarded := s.forwarded ++ r.1, bufferedMpdus := r.2, winStartB := newWinStartB }

/-- The part of `NotifyReceivedMpdu` for the scoreboard. -/
def scoreMpdu (seqNumber : ℕ) : Option (RecipientBlockAckAgreement α) :=
  (getDistance seqNumber s.scoreboard.winStart).bind fun distance =>
    if distance < s.scoreboard.getWinSize then
      (s.scoreboard.setAt distance).map fun w => { s with scoreboard := w }
    else if distance < SEQNO_SPACE_HALF_SIZE then
      let advanced := s.scoreboard.advance (distance - s.scoreboard.getWinSize + 1)
      if advanced.getWinSize = 0 then none
      else (advanced.setAt (advanced.getWinSize - 1)).map fun w => { s with scoreboard := w }
    else some s

def notifyReceivedMpdu (seqNumber : ℕ) (mpdu : α) : Option (RecipientBlockAckAgreement α) :=
  (s.scoreMpdu seqNumber).bind fun s => (getDistance seqNumber s.winStartB).bind fun distance =>
    if distance < s.winSizeB then
      { s with bufferedMpdus := insertMpdu s.winStartB (seqNumber, mpdu) s.bufferedMpdus }.passBufferedMpdusUntilFirstLost
    else if distance < SEQNO_SPACE_HALF_SIZE then
      ({ s with bufferedMpdus := insertMpdu s.winStartB (seqNumber, mpdu) s.bufferedMpdus
        }.passBufferedMpdusWithSeqNumberLessThan (winStartFor seqNumber s.winSizeB)).bind passBufferedMpdusUntilFirstLost
    else some s

/-- The part of `NotifyReceivedBar` for the scoreboard. -/
def scoreBar (startingSequenceNumber : ℕ) : Option (RecipientBlockAckAgreement α) :=
  (getDistance startingSequenceNumber s.scoreboard.winStart).bind fun distance =>
    if distance > 0 ∧ distance < s.scoreboard.getWinSize then
      let w := s.scoreboard.advance distance
      if w.winStart = startingSequenceNumber then some { s with scoreboard := w } else none
    else if distance > 0 ∧ distance < SEQNO_SPACE_HALF_SIZE then
      some { s with scoreboard := s.scoreboard.reset startingSequenceNumber }
    else some s

def notifyReceivedBar (startingSequenceNumber : ℕ) : Option (RecipientBlockAckAgreement α) :=
  (s.scoreBar startingSequenceNumber).bind fun s => (getDistance startingSequenceNumber s.winStartB).bind fun distance =>
    if distance > 0 ∧ distance < SEQNO_SPACE_HALF_SIZE then
      (s.passBufferedMpdusWithSeqNumberLessThan startingSequenceNumber).bind passBufferedMpdusUntilFirstLost
    else some s

end RecipientBlockAckAgreement

/-- What a recipient is notified of. -/
inductive Received (α : Type) where
  | mpdu (seq : SequenceNumber) (m : α)
  | bar (seq : SequenceNumber)

namespace RecipientBlockAckAgreement

variable {α : Type}

def step (s : RecipientBlockAckAgreement α) : Received α → Option (RecipientBlockAckAgreement α)
  | .mpdu seq m => s.notifyReceivedMpdu seq m
  | .bar seq => s.notifyReceivedBar seq

def run (bufferSize : ℕ) (startingSeq : SequenceNumber) (l : List (Received α)) : Option (RecipientBlockAckAgreement α) :=
  l.foldlM step (init bufferSize startingSeq)

end RecipientBlockAckAgreement

/-! ## Numbers without a turn -/

/-- A frame, with the number in its header. -/
def wire {α : Type} (e : ℕ × α) : ℕ × α := (e.1 % SEQNO_SPACE_SIZE, e.2)

section Numbers

variable {α : Type} (r : Reorder α)

def number (seq : ℕ) : ℕ := r.start + (seq + SEQNO_SPACE_SIZE - r.start % SEQNO_SPACE_SIZE) % SEQNO_SPACE_SIZE

/-- Numbers in the first half of the space are new, the others are old. -/
def reorderStep (bufferSize : ℕ) : Received α → Reorder α
  | .mpdu seq m =>
    if number r seq < r.start + SEQNO_SPACE_HALF_SIZE then r.receive bufferSize (number r seq) m else r
  | .bar seq =>
    if r.start < number r seq ∧ number r seq < r.start + SEQNO_SPACE_HALF_SIZE then r.advanceTo (number r seq) else r

def reorderRun (bufferSize : ℕ) (startingSeq : SequenceNumber) (l : List (Received α)) : Reorder α :=
  l.foldl (fun r e => reorderStep r bufferSize e) { start := startingSeq }

end Numbers

/-- The window starts at its number, the frames before it were passed up, and the others are in the buffer. -/
structure Tracks {α : Type} (s : RecipientBlockAckAgreement α) (r : Reorder α) : Prop where
  winStartB : s.winStartB = r.start % SEQNO_SPACE_SIZE
  forwarded : s.forwarded = r.delivered.map wire
  buffered : s.bufferedMpdus = r.held.map wire

/-- No frame in the buffer is behind the window. -/
structure Agree {α : Type} (s : RecipientBlockAckAgreement α) (r : Reorder α) : Prop extends Tracks s r where
  window : ∀ e ∈ r.received.toList, e.1 < r.start + s.winSizeB

/-- **A frame fits**: it is in the window, or old, or it does not move the start of the window back over the turn of the
numbers. Without a buffer, only old frames fit. -/
def Fits {α : Type} (s : RecipientBlockAckAgreement α) : Received α → Prop
  | .mpdu seq _ =>
    let distance := (seq + SEQNO_SPACE_SIZE - s.winStartB) % SEQNO_SPACE_SIZE
    s.winSizeB ≤ distance → distance < SEQNO_SPACE_HALF_SIZE → 0 < s.winSizeB ∧ s.winSizeB ≤ seq + 1
  | .bar _ => True

section Distances

variable {a b n : ℕ}

theorem getDistance_mod (h : n ≤ a) (h' : a < n + SEQNO_SPACE_SIZE) :
    getDistance (a % SEQNO_SPACE_SIZE) (n % SEQNO_SPACE_SIZE) = some (a - n) := by
  rw [SEQNO_SPACE_SIZE] at *
  rw [getDistance, SEQNO_SPACE_SIZE, if_pos (by omega), Option.some_inj]
  omega

theorem compare_mod (ha : n ≤ a) (ha' : a < n + SEQNO_SPACE_SIZE) (hb : n ≤ b) (hb' : b < n + SEQNO_SPACE_SIZE) :
    compare (n % SEQNO_SPACE_SIZE) (a % SEQNO_SPACE_SIZE) (b % SEQNO_SPACE_SIZE) = decide (a < b) := by
  rw [SEQNO_SPACE_SIZE] at *
  rw [compare, SEQNO_SPACE_SIZE, decide_eq_decide]
  omega

theorem getDistance_number {α : Type} (r : Reorder α) {seq : ℕ} (hseq : seq < SEQNO_SPACE_SIZE) :
    getDistance seq (r.start % SEQNO_SPACE_SIZE) = some (number r seq - r.start) := by
  rw [SEQNO_SPACE_SIZE] at *
  rw [getDistance, number, SEQNO_SPACE_SIZE, if_pos (by omega), Nat.add_sub_cancel_left]

theorem number_mod {α : Type} (r : Reorder α) {seq : ℕ} (hseq : seq < SEQNO_SPACE_SIZE) :
    number r seq % SEQNO_SPACE_SIZE = seq := by
  rw [SEQNO_SPACE_SIZE] at *
  rw [number, SEQNO_SPACE_SIZE]
  omega

theorem number_lt {α : Type} (r : Reorder α) (seq : ℕ) : number r seq < r.start + SEQNO_SPACE_SIZE := by
  rw [number, SEQNO_SPACE_SIZE]
  omega

theorem le_number {α : Type} (r : Reorder α) (seq : ℕ) : r.start ≤ number r seq := Nat.le_add_right _ _

end Distances

section Loops

variable {α : Type} {l : List (ℕ × α)} {n : ℕ}

theorem insertMpdu_map (hsorted : SortedL l) (hl : ∀ e ∈ l, n ≤ e.1 ∧ e.1 < n + SEQNO_SPACE_SIZE) {a : ℕ} (ha : n ≤ a)
    (ha' : a < n + SEQNO_SPACE_SIZE) (m : α) :
    insertMpdu (n % SEQNO_SPACE_SIZE) (wire (a, m)) (l.map wire) =
      (if lookupL a l = none then insertL a m l else l).map wire := by
  induction l with
  | nil => rfl
  | cons e rest ih =>
    obtain ⟨k, v⟩ := e
    obtain ⟨hk, hk'⟩ := hl (k, v) List.mem_cons_self
    obtain ⟨hfirst, hsorted⟩ := List.pairwise_cons.mp hsorted
    have hrest := ih hsorted fun f hf => hl f (List.mem_cons_of_mem _ hf)
    have hless : compare (n % SEQNO_SPACE_SIZE) (wire (a, m)).1 (wire (k, v)).1 = decide (a < k) := compare_mod ha ha' hk hk'
    have hgreater : compare (n % SEQNO_SPACE_SIZE) (wire (k, v)).1 (wire (a, m)).1 = decide (k < a) := compare_mod hk hk' ha ha'
    rw [List.map_cons, insertMpdu, lookupL, insertL, hless, hgreater]
    simp only [decide_eq_true_iff]
    rcases lt_trichotomy a k with hlt | rfl | hgt
    · have hnone : lookupL a rest = none := lookupL_eq_none fun p hp => (hlt.trans (hfirst p hp)).ne'
      rw [if_pos hlt, if_neg hlt.ne', hnone, if_pos rfl, if_pos hlt]
      rfl
    · rw [if_neg (lt_irrefl _), if_neg (lt_irrefl _), if_pos rfl, if_neg (Option.some_ne_none v)]
      rfl
    · rw [if_neg (lt_asymm hgt), if_pos hgt, if_neg hgt.ne, hrest, if_neg (lt_asymm hgt), if_neg hgt.ne]
      split_ifs <;> rfl

theorem passUntilFirstLost_map (hsorted : SortedL l) (hl : ∀ e ∈ l, n ≤ e.1 ∧ e.1 < n + SEQNO_SPACE_SIZE) :
    passUntilFirstLost (n % SEQNO_SPACE_SIZE) (l.map wire) =
      ((l.filter fun e => e.1 < firstMissing n l).map wire, (l.filter fun e => firstMissing n l ≤ e.1).map wire,
        firstMissing n l % SEQNO_SPACE_SIZE) := by
  induction l generalizing n with
  | nil => rfl
  | cons e rest ih =>
    obtain ⟨hle, hlt⟩ := hl e List.mem_cons_self
    obtain ⟨hfirst, hsorted⟩ := List.pairwise_cons.mp hsorted
    rw [List.map_cons, passUntilFirstLost, firstMissing, if_neg (not_lt.mpr hle)]
    by_cases heq : e.1 = n
    · have hrest := ih (n := n + 1) hsorted fun f hf => by
        have hf' := hfirst f hf
        have hf'' := hl f (List.mem_cons_of_mem e hf)
        omega
      have hnext : (n % SEQNO_SPACE_SIZE + 1) % SEQNO_SPACE_SIZE = (n + 1) % SEQNO_SPACE_SIZE := by
        rw [Nat.mod_add_mod]
      have hpassed : e.1 < firstMissing (n + 1) rest := heq ▸ (Nat.lt_succ_self n).trans_le (le_firstMissing _ _)
      rw [if_pos (by rw [wire, heq]), if_pos heq, hnext, hrest, List.filter_cons_of_pos (by rwa [decide_eq_true_iff]),
        List.filter_cons_of_neg (by rwa [decide_eq_true_iff, not_le]), List.map_cons]
    · have hne : (wire e).1 ≠ n % SEQNO_SPACE_SIZE := by
        rw [wire, SEQNO_SPACE_SIZE] at *
        dsimp only
        omega
      have hall : ∀ f ∈ e :: rest, n < f.1 := by
        intro f hf
        rcases List.mem_cons.mp hf with rfl | hf
        · omega
        · have hf' := hfirst f hf
          omega
      rw [if_neg hne, if_neg heq, List.filter_eq_nil_iff.mpr fun f hf => ?_, List.filter_eq_self.mpr fun f hf => ?_]
      · rfl
      · exact decide_eq_true (hall f hf).le
      · rw [decide_eq_true_iff, not_lt]
        exact (hall f hf).le

theorem passLessThan_map (hsorted : SortedL l) (hl : ∀ e ∈ l, n ≤ e.1 ∧ e.1 < n + SEQNO_SPACE_SIZE) {k : ℕ} (hk : n ≤ k)
    (hk' : k < n + SEQNO_SPACE_SIZE) :
    passLessThan (n % SEQNO_SPACE_SIZE) (k % SEQNO_SPACE_SIZE) (l.map wire) =
      some ((l.filter fun e => e.1 < k).map wire, (l.filter fun e => k ≤ e.1).map wire) := by
  induction l with
  | nil => rfl
  | cons e rest ih =>
    obtain ⟨hle, hlt⟩ := hl e List.mem_cons_self
    obtain ⟨hfirst, hsorted⟩ := List.pairwise_cons.mp hsorted
    rw [List.map_cons, passLessThan, wire, getDistance_mod hle hlt, getDistance_mod hk hk', Option.bind_some, Option.bind_some]
    by_cases hpass : e.1 < k
    · rw [if_pos (by omega), ih hsorted fun f hf => hl f (List.mem_cons_of_mem e hf),
        List.filter_cons_of_pos (by rwa [decide_eq_true_iff]), List.filter_cons_of_neg (by rwa [decide_eq_true_iff, not_le])]
      rfl
    · have hall : ∀ f ∈ e :: rest, k ≤ f.1 := by
        intro f hf
        rcases List.mem_cons.mp hf with rfl | hf
        · omega
        · have hf' := hfirst f hf
          omega
      rw [if_neg (by omega), List.filter_eq_nil_iff.mpr fun f hf => ?_, List.filter_eq_self.mpr fun f hf => ?_]
      · rfl
      · exact decide_eq_true (hall f hf)
      · rw [decide_eq_true_iff, not_lt]
        exact hall f hf

end Loops

/-! ### The methods -/

namespace RecipientBlockAckAgreement

variable {α : Type} {s : RecipientBlockAckAgreement α} {r : Reorder α}

theorem held_range {k : ℕ} (hbound : ∀ e ∈ r.received.toList, e.1 < r.start + k) :
    ∀ e ∈ r.held, r.start ≤ e.1 ∧ e.1 < r.start + k := by
  intro e he
  obtain ⟨hmem, hle⟩ := List.mem_filter.mp he
  exact ⟨of_decide_eq_true hle, hbound e hmem⟩

theorem half_lt : SEQNO_SPACE_HALF_SIZE < SEQNO_SPACE_SIZE := by decide

theorem noOldMpdus_eq (h : Tracks s r) (hbound : ∀ e ∈ r.received.toList, e.1 < r.start + SEQNO_SPACE_HALF_SIZE) :
    s.noOldMpdus = some () := by
  have hhalf := half_lt
  rw [noOldMpdus, h.buffered, h.winStartB, List.getLast?_map]
  cases hlast : r.held.getLast? with
  | none => rfl
  | some e =>
    obtain ⟨hle, hlt⟩ := held_range hbound e (List.mem_of_getLast? hlast)
    rw [Option.map_some, Option.elim_some, wire, getDistance_mod hle (by omega), Option.bind_some, if_pos (by omega)]

theorem tracks_passUntilFirstLost (h : Tracks s r)
    (hbound : ∀ e ∈ r.received.toList, e.1 < r.start + SEQNO_SPACE_HALF_SIZE) :
    ∃ s', s.passBufferedMpdusUntilFirstLost = some s' ∧ Tracks s' (r.advanceTo r.start) ∧
      s'.scoreboard = s.scoreboard ∧ s'.winSizeB = s.winSizeB := by
  have hhalf := half_lt
  have hpass := passUntilFirstLost_map (n := r.start) r.sorted_held fun e he => by
    have hrange := held_range hbound e he
    omega
  have hmissing : firstMissing r.start r.held = firstMissing r.start r.received.toList := firstMissing_filter le_rfl
  rw [hmissing] at hpass
  rw [passBufferedMpdusUntilFirstLost, noOldMpdus_eq h hbound, Option.map_some, h.buffered, h.winStartB, hpass]
  refine ⟨_, rfl, ⟨rfl, ?_, ?_⟩, rfl, rfl⟩
  · rw [Reorder.delivered_advanceTo le_rfl, List.map_append, ← h.forwarded]
  · rw [Reorder.held_advanceTo le_rfl]

theorem tracks_passLessThan (h : Tracks s r)
    (hbound : ∀ e ∈ r.received.toList, e.1 < r.start + SEQNO_SPACE_HALF_SIZE) {k : ℕ} (hk : r.start ≤ k)
    (hk' : k < r.start + SEQNO_SPACE_SIZE) :
    ∃ s', s.passBufferedMpdusWithSeqNumberLessThan (k % SEQNO_SPACE_SIZE) = some s' ∧ Tracks s' { r with start := k } ∧
      s'.scoreboard = s.scoreboard ∧ s'.winSizeB = s.winSizeB := by
  have hhalf := half_lt
  have hpass := passLessThan_map (n := r.start) r.sorted_held (fun e he => by
    have hrange := held_range hbound e he
    omega) hk hk'
  rw [passBufferedMpdusWithSeqNumberLessThan, noOldMpdus_eq h hbound, Option.bind_some, h.buffered, h.winStartB, hpass]
  refine ⟨_, rfl, ⟨rfl, ?_, ?_⟩, rfl, rfl⟩
  · change s.forwarded ++ _ = _
    rw [h.forwarded, ← List.map_append, Reorder.delivered, Reorder.held, filter_lt_append r.received.sorted hk, Reorder.delivered]
  · change List.map wire _ = _
    rw [Reorder.held, filter_le_filter_le _ hk, Reorder.held]

theorem tracks_insertMpdu (h : Tracks s r)
    (hbound : ∀ e ∈ r.received.toList, e.1 < r.start + SEQNO_SPACE_HALF_SIZE) {a : ℕ} (ha : r.start ≤ a)
    (ha' : a < r.start + SEQNO_SPACE_SIZE) (m : α) :
    Tracks { s with bufferedMpdus := insertMpdu s.winStartB (wire (a, m)) s.bufferedMpdus }
      { r with received := r.received.insertNew a m } := by
  have hhalf := half_lt
  refine ⟨h.winStartB, ?_, ?_⟩
  · rw [Reorder.delivered_insertNew ha]
    exact h.forwarded
  · rw [Reorder.held_insertNew ha, h.winStartB, h.buffered]
    refine insertMpdu_map r.sorted_held (fun e he => ?_) ha ha' m
    have hrange := held_range hbound e he
    omega

/-! ### The scoreboard -/

/-- The scoreboard has the size of the window, and without a window it starts where the buffer does. -/
structure Scored (s : RecipientBlockAckAgreement α) (size : ℕ) : Prop where
  winSizeB : s.winSizeB = size
  length : s.scoreboard.getWinSize = size
  start : s.scoreboard.winStart < SEQNO_SPACE_SIZE
  sync : size = 0 → s.scoreboard.winStart = s.winStartB

theorem getWinSize_clear (count : ℕ) (w : BlockAckWindow) : (w.clear count).getWinSize = w.getWinSize := by
  induction count generalizing w with
  | zero => rfl
  | succ count ih =>
    rw [BlockAckWindow.clear, ih]
    exact List.length_set

theorem getWinSize_advance (w : BlockAckWindow) (count : ℕ) :
    (w.advance count).getWinSize = w.getWinSize ∧ (w.advance count).winStart = (w.winStart + count) % SEQNO_SPACE_SIZE := by
  rw [BlockAckWindow.advance]
  split_ifs
  · exact ⟨List.length_replicate, rfl⟩
  · exact ⟨getWinSize_clear count w, rfl⟩

theorem setAt_eq (w : BlockAckWindow) {distance : ℕ} (h : distance < w.getWinSize) :
    ∃ w', w.setAt distance = some w' ∧ w'.getWinSize = w.getWinSize ∧ w'.winStart = w.winStart :=
  ⟨_, if_pos h, List.length_set, rfl⟩

theorem getDistance_eq {a b : ℕ} (ha : a < SEQNO_SPACE_SIZE) (hb : b < SEQNO_SPACE_SIZE) :
    getDistance a b = some ((a + SEQNO_SPACE_SIZE - b) % SEQNO_SPACE_SIZE) := if_pos ⟨ha, hb⟩

theorem mod_lt_space (k : ℕ) : k % SEQNO_SPACE_SIZE < SEQNO_SPACE_SIZE := Nat.mod_lt k (by decide)

variable {seq : ℕ} {size : ℕ}

/-- The scoreboard takes a frame when there is one, or when the frame is old. -/
theorem scoreMpdu_eq (h : s.Scored size) (hseq : seq < SEQNO_SPACE_SIZE)
    (hsize : size = 0 → SEQNO_SPACE_HALF_SIZE ≤ (seq + SEQNO_SPACE_SIZE - s.winStartB) % SEQNO_SPACE_SIZE) :
    ∃ w, s.scoreMpdu seq = some { s with scoreboard := w } ∧ ({ s with scoreboard := w }).Scored size := by
  have hlength := h.length
  rw [scoreMpdu, getDistance_eq hseq h.start, Option.bind_some]
  generalize hdistance : (seq + SEQNO_SPACE_SIZE - s.scoreboard.winStart) % SEQNO_SPACE_SIZE = distance
  by_cases hin : distance < s.scoreboard.getWinSize
  · obtain ⟨w, hw, hsame, hstart⟩ := setAt_eq s.scoreboard hin
    rw [if_pos hin, hw]
    exact ⟨w, rfl, h.winSizeB, hsame.trans hlength, hstart ▸ h.start, fun hzero => by omega⟩
  rw [if_neg hin]
  by_cases hahead : distance < SEQNO_SPACE_HALF_SIZE
  · obtain ⟨hsame, hstart⟩ := getWinSize_advance s.scoreboard (distance - s.scoreboard.getWinSize + 1)
    have hpos : size ≠ 0 := by
      intro hempty
      have hold := hsize hempty
      rw [← h.sync hempty, hdistance] at hold
      omega
    have hlast : (s.scoreboard.advance (distance - s.scoreboard.getWinSize + 1)).getWinSize - 1 <
        (s.scoreboard.advance (distance - s.scoreboard.getWinSize + 1)).getWinSize := by omega
    obtain ⟨w, hw, hsame', hstart'⟩ := setAt_eq _ hlast
    rw [if_pos hahead]
    dsimp only
    rw [if_neg (by omega), hw]
    refine ⟨w, rfl, h.winSizeB, ?_, ?_, fun hempty => absurd hempty hpos⟩
    · change w.getWinSize = size
      omega
    · change w.winStart < _
      rw [hstart', hstart]
      exact mod_lt_space _
  · rw [if_neg hahead]
    exact ⟨s.scoreboard, rfl, h⟩

/-- The start of the window after a request, without frames in the buffer. -/
def barStart (winStartB seq : ℕ) : ℕ :=
  if 0 < (seq + SEQNO_SPACE_SIZE - winStartB) % SEQNO_SPACE_SIZE ∧
    (seq + SEQNO_SPACE_SIZE - winStartB) % SEQNO_SPACE_SIZE < SEQNO_SPACE_HALF_SIZE then seq else winStartB

/-- The assertion on the scoreboard does not fail. -/
theorem scoreBar_eq (h : s.Scored size) (hseq : seq < SEQNO_SPACE_SIZE) :
    ∃ w, s.scoreBar seq = some { s with scoreboard := w } ∧ w.getWinSize = size ∧ w.winStart < SEQNO_SPACE_SIZE ∧
      (size = 0 → w.winStart = barStart s.winStartB seq) := by
  have hlength := h.length
  have hstart := h.start
  rw [scoreBar, getDistance_eq hseq h.start, Option.bind_some]
  by_cases hin : (seq + SEQNO_SPACE_SIZE - s.scoreboard.winStart) % SEQNO_SPACE_SIZE > 0 ∧
      (seq + SEQNO_SPACE_SIZE - s.scoreboard.winStart) % SEQNO_SPACE_SIZE < s.scoreboard.getWinSize
  · obtain ⟨hsize, hadvance⟩ := getWinSize_advance s.scoreboard
      ((seq + SEQNO_SPACE_SIZE - s.scoreboard.winStart) % SEQNO_SPACE_SIZE)
    have hsame : (s.scoreboard.winStart + (seq + SEQNO_SPACE_SIZE - s.scoreboard.winStart) % SEQNO_SPACE_SIZE) %
        SEQNO_SPACE_SIZE = seq := by
      rw [SEQNO_SPACE_SIZE] at *
      omega
    rw [if_pos hin]
    dsimp only
    rw [if_pos (hadvance.trans hsame)]
    refine ⟨_, rfl, hsize.trans hlength, ?_, fun hempty => by omega⟩
    rw [hadvance]
    exact mod_lt_space _
  rw [if_neg hin, barStart]
  by_cases hahead : (seq + SEQNO_SPACE_SIZE - s.scoreboard.winStart) % SEQNO_SPACE_SIZE > 0 ∧
      (seq + SEQNO_SPACE_SIZE - s.scoreboard.winStart) % SEQNO_SPACE_SIZE < SEQNO_SPACE_HALF_SIZE
  · rw [if_pos hahead]
    refine ⟨_, rfl, List.length_replicate.trans hlength, hseq, fun hempty => ?_⟩
    rw [h.sync hempty] at hahead
    rw [if_pos hahead]
    rfl
  · rw [if_neg hahead]
    refine ⟨_, rfl, hlength, hstart, fun hempty => ?_⟩
    have hsync := h.sync hempty
    rw [hsync] at hahead
    rw [if_neg hahead, hsync]

/-! ### Steps -/

theorem tracks_setScoreboard (h : Tracks s r) (w : BlockAckWindow) : Tracks { s with scoreboard := w } r :=
  ⟨h.winStartB, h.forwarded, h.buffered⟩

theorem distance_eq (h : Tracks s r) (hseq : seq < SEQNO_SPACE_SIZE) :
    (seq + SEQNO_SPACE_SIZE - s.winStartB) % SEQNO_SPACE_SIZE = number r seq - r.start := by
  have hdistance := getDistance_number r hseq
  rwa [← h.winStartB, getDistance_eq hseq (h.winStartB ▸ mod_lt_space _), Option.some_inj] at hdistance

theorem winStartFor_number {seq size : ℕ} (hseq : seq < SEQNO_SPACE_SIZE) (hsize : 0 < size) (hle : size ≤ seq + 1)
    (hnumber : size ≤ number r seq + 1) :
    winStartFor seq size = (number r seq + 1 - size) % SEQNO_SPACE_SIZE := by
  have hmod := number_mod r hseq
  rw [winStartFor]
  rw [SEQNO_SPACE_SIZE] at *
  omega

/-- **A frame that fits.** -/
theorem agree_notifyReceivedMpdu (hsmall : size ≤ 256) (h : Agree s r) (hscored : s.Scored size)
    (hseq : seq < SEQNO_SPACE_SIZE) (m : α)
    (hfits : s.winSizeB ≤ number r seq - r.start → number r seq - r.start < SEQNO_SPACE_HALF_SIZE →
      0 < s.winSizeB ∧ s.winSizeB ≤ seq + 1) :
    ∃ s', s.notifyReceivedMpdu seq m = some s' ∧ s'.Scored size ∧
      Agree s' (if number r seq < r.start + SEQNO_SPACE_HALF_SIZE then r.receive size (number r seq) m else r) := by
  have hhalf := half_lt
  have hle := le_number r seq
  have hlt := number_lt r seq
  have hdistance := distance_eq h.toTracks hseq
  have hsize := hscored.winSizeB
  have hhalfsize : size < SEQNO_SPACE_HALF_SIZE := by
    rw [SEQNO_SPACE_HALF_SIZE, SEQNO_SPACE_SIZE]
    omega
  obtain ⟨w, hw, hscored'⟩ := scoreMpdu_eq hscored hseq fun hempty => by
    by_contra hnot
    have hpos := (hfits (by omega) (by omega)).1
    omega
  have hbound : ∀ e ∈ r.received.toList, e.1 < r.start + SEQNO_SPACE_HALF_SIZE := by
    intro e he
    have hwindow := h.window e he
    omega
  have hwire : (seq, m) = wire (number r seq, m) := by rw [wire, number_mod r hseq]
  have hinserted := tracks_insertMpdu (tracks_setScoreboard h.toTracks w) hbound hle hlt m
  rw [notifyReceivedMpdu, hw, Option.bind_some]
  dsimp only at hinserted ⊢
  rw [h.winStartB, getDistance_number r hseq, Option.bind_some, hwire, ← h.winStartB]
  by_cases hin : number r seq - r.start < s.winSizeB
  · have hbound' : ∀ e ∈ (r.received.insertNew (number r seq) m).toList, e.1 < r.start + size := by
      intro e he
      rcases Reorder.mem_insertNew he with heq | he
      · omega
      · have hwindow := h.window e he
        omega
    obtain ⟨s', hs', htracks, hscore, hwin⟩ := tracks_passUntilFirstLost hinserted fun e he => by
      have hwindow := hbound' e he
      dsimp only
      omega
    rw [if_pos hin, hs', if_pos (by omega), Reorder.receive, max_eq_left (by omega)]
    refine ⟨s', rfl, ⟨hwin.trans hsize, ?_, ?_, ?_⟩, htracks, fun e he => ?_⟩
    · rw [hscore]
      exact hscored'.length
    · rw [hscore]
      exact hscored'.start
    · intro hempty
      omega
    · have hwindow := hbound' e he
      have hstart := le_firstMissing r.start (r.received.insertNew (number r seq) m).toList
      change e.1 < firstMissing r.start (r.received.insertNew (number r seq) m).toList + s'.winSizeB
      rw [hwin]
      dsimp only
      omega
  rw [if_neg hin]
  by_cases hahead : number r seq - r.start < SEQNO_SPACE_HALF_SIZE
  · obtain ⟨hpos, hroom⟩ := hfits (not_lt.mp hin) hahead
    have hbound' : ∀ e ∈ (r.received.insertNew (number r seq) m).toList, e.1 < number r seq + 1 := by
      intro e he
      rcases Reorder.mem_insertNew he with heq | he
      · omega
      · have hwindow := h.window e he
        omega
    obtain ⟨s₁, hs₁, htracks₁, hscore₁, hwin₁⟩ := tracks_passLessThan hinserted (fun e he => by
      have hwindow := hbound' e he
      dsimp only
      omega) (k := number r seq + 1 - s.winSizeB) (by dsimp only; omega) (by dsimp only; omega)
    obtain ⟨s', hs', htracks, hscore, hwin⟩ := tracks_passUntilFirstLost htracks₁ fun e he => by
      have hwindow := hbound' e he
      dsimp only
      omega
    rw [if_pos hahead, winStartFor_number (r := r) hseq hpos hroom (by omega), hs₁, Option.bind_some, hs', if_pos (by omega),
      Reorder.receive, max_eq_right (by omega), ← hsize]
    refine ⟨s', rfl, ⟨?_, ?_, ?_, ?_⟩, htracks, fun e he => ?_⟩
    · rw [hwin, hwin₁]
    · rw [hscore, hscore₁, hsize]
      exact hscored'.length
    · rw [hscore, hscore₁]
      exact hscored'.start
    · intro hempty
      omega
    · have hwindow := hbound' e he
      have hstart := le_firstMissing (number r seq + 1 - s.winSizeB) (r.received.insertNew (number r seq) m).toList
      change e.1 < firstMissing (number r seq + 1 - s.winSizeB) (r.received.insertNew (number r seq) m).toList + s'.winSizeB
      rw [hwin, hwin₁]
      dsimp only
      omega
  · rw [if_neg hahead, if_neg (by omega)]
    exact ⟨_, rfl, hscored', tracks_setScoreboard h.toTracks w, h.window⟩

theorem passBar_eq (h : Agree s r) (hsmall : s.winSizeB ≤ 256) {k : ℕ} (hk : r.start ≤ k)
    (hk' : k < r.start + SEQNO_SPACE_HALF_SIZE) :
    ∃ s', ((s.passBufferedMpdusWithSeqNumberLessThan (k % SEQNO_SPACE_SIZE)).bind passBufferedMpdusUntilFirstLost) = some s' ∧
      Agree s' (r.advanceTo k) ∧ s'.scoreboard = s.scoreboard ∧ s'.winSizeB = s.winSizeB := by
  have hhalf := half_lt
  have hhalfsize : s.winSizeB < SEQNO_SPACE_HALF_SIZE := by
    rw [SEQNO_SPACE_HALF_SIZE, SEQNO_SPACE_SIZE]
    omega
  obtain ⟨s₁, hs₁, htracks₁, hscore₁, hwin₁⟩ := tracks_passLessThan h.toTracks (fun e he => by
    have hwindow := h.window e he
    omega) hk (by omega)
  obtain ⟨s', hs', htracks, hscore, hwin⟩ := tracks_passUntilFirstLost htracks₁ fun e he => by
    have hwindow := h.window e he
    dsimp only
    omega
  refine ⟨s', by rw [hs₁, Option.bind_some, hs'], ⟨htracks, fun e he => ?_⟩, hscore.trans hscore₁, hwin.trans hwin₁⟩
  have hwindow := h.window e he
  have hstart := le_firstMissing k r.received.toList
  change e.1 < firstMissing k r.received.toList + s'.winSizeB
  omega

theorem agree_notifyReceivedBar (hsmall : size ≤ 256) (h : Agree s r) (hscored : s.Scored size)
    (hseq : seq < SEQNO_SPACE_SIZE) :
    ∃ s', s.notifyReceivedBar seq = some s' ∧ s'.Scored size ∧
      Agree s' (if r.start < number r seq ∧ number r seq < r.start + SEQNO_SPACE_HALF_SIZE then r.advanceTo (number r seq)
        else r) := by
  have hle := le_number r seq
  have hsize := hscored.winSizeB
  have hdistance := distance_eq h.toTracks hseq
  obtain ⟨w, hw, hwsize, hwstart, hwsync⟩ := scoreBar_eq hscored hseq
  rw [barStart, hdistance] at hwsync
  rw [notifyReceivedBar, hw, Option.bind_some]
  dsimp only
  rw [h.winStartB, getDistance_number r hseq, Option.bind_some]
  by_cases hahead : r.start < number r seq ∧ number r seq < r.start + SEQNO_SPACE_HALF_SIZE
  · have hscoredAt : number r seq - r.start > 0 ∧ number r seq - r.start < SEQNO_SPACE_HALF_SIZE := by omega
    have hnew : Agree { s with scoreboard := w } r := ⟨tracks_setScoreboard h.toTracks w, h.window⟩
    rw [if_pos hscoredAt, if_pos hahead]
    rw [if_pos hscoredAt] at hwsync
    obtain ⟨s', hs', hagree, hscore, hwin⟩ := passBar_eq hnew (hsize.trans_le hsmall) hle hahead.2
    rw [number_mod r hseq] at hs'
    rw [← h.winStartB]
    refine ⟨s', hs', ⟨hwin.trans hsize, ?_, ?_, fun hempty => ?_⟩, hagree⟩
    · rw [hscore]
      exact hwsize
    · rw [hscore]
      exact hwstart
    · -- without a buffer there are no frames to move the start further
      have hstart : firstMissing (number r seq) r.received.toList = number r seq := by
        refine le_antisymm (firstMissing_le le_rfl fun e he => ?_) (le_firstMissing _ _)
        have hwindow := h.window e he
        omega
      rw [hscore, hagree.winStartB, Reorder.advanceTo, hstart, number_mod r hseq]
      exact hwsync hempty
  · have hnot : ¬ (number r seq - r.start > 0 ∧ number r seq - r.start < SEQNO_SPACE_HALF_SIZE) := by omega
    rw [if_neg hnot] at hwsync
    rw [if_neg hnot, if_neg hahead, ← h.winStartB]
    exact ⟨_, rfl, ⟨hsize, hwsize, hwstart, hwsync⟩, tracks_setScoreboard h.toTracks w, h.window⟩

theorem insertMpdu_ne_nil (winStartB : ℕ) (e : ℕ × α) (l : List (ℕ × α)) : insertMpdu winStartB e l ≠ [] := by
  cases l with
  | nil => exact List.cons_ne_nil _ _
  | cons f rest =>
    rw [insertMpdu]
    split_ifs <;> exact List.cons_ne_nil _ _

theorem passLessThan_eq_none {k : ℕ} (hk : ¬ k < SEQNO_SPACE_SIZE) (hne : s.bufferedMpdus ≠ []) :
    s.passBufferedMpdusWithSeqNumberLessThan k = none := by
  have hnone : getDistance k s.winStartB = none := if_neg fun h => hk h.1
  obtain ⟨e, rest, hl⟩ := List.exists_cons_of_ne_nil hne
  rw [passBufferedMpdusWithSeqNumberLessThan, hl, passLessThan, hnone]
  cases s.noOldMpdus with
  | none => rfl
  | some u =>
    rw [Option.bind_some]
    cases getDistance e.1 s.winStartB with
    | none => rfl
    | some distance => rfl

/-- **A frame that does not fit** fails an assertion. -/
theorem notifyReceivedMpdu_eq_none (hsmall : size ≤ 256) (h : Agree s r) (hscored : s.Scored size)
    (hseq : seq < SEQNO_SPACE_SIZE) (m : α) (hbeyond : s.winSizeB ≤ number r seq - r.start)
    (hahead : number r seq - r.start < SEQNO_SPACE_HALF_SIZE) (hfits : ¬ (0 < s.winSizeB ∧ s.winSizeB ≤ seq + 1)) :
    s.notifyReceivedMpdu seq m = none := by
  have hhalf := half_lt
  have hle := le_number r seq
  have hsize := hscored.winSizeB
  rw [notifyReceivedMpdu]
  rcases Nat.eq_zero_or_pos s.winSizeB with hzero | hpos
  · have hempty : s.scoreboard.getWinSize = 0 := by rw [hscored.length, ← hsize, hzero]
    have hsync := hscored.sync (hsize ▸ hzero)
    have hadvance := getWinSize_advance s.scoreboard (number r seq - r.start - s.scoreboard.getWinSize + 1)
    have hscore : s.scoreMpdu seq = none := by
      rw [scoreMpdu, hsync, h.winStartB, getDistance_number r hseq, Option.bind_some, if_neg (by omega), if_pos hahead]
      dsimp only
      rw [if_pos (hadvance.1.trans hempty)]
    rw [hscore, Option.bind_none]
  · obtain ⟨w, hw, -⟩ := scoreMpdu_eq hscored hseq fun hempty => by omega
    have hhalfsize : size < SEQNO_SPACE_HALF_SIZE := by
      rw [SEQNO_SPACE_HALF_SIZE, SEQNO_SPACE_SIZE]
      omega
    have hturn : ¬ winStartFor seq s.winSizeB < SEQNO_SPACE_SIZE := by
      rw [winStartFor]
      rw [SEQNO_SPACE_SIZE] at *
      omega
    rw [hw, Option.bind_some]
    dsimp only
    rw [h.winStartB, getDistance_number r hseq, Option.bind_some, if_neg (by omega), if_pos hahead,
      passLessThan_eq_none hturn (insertMpdu_ne_nil _ _ _), Option.bind_none]

end RecipientBlockAckAgreement

/-! ## Runs -/

section Runs

variable {α : Type}

/-- One notice moves the window forward by at most half the space. Frames stay received, and those that were passed up
are the beginning of those that are passed up later. -/
structure Moves (r r' : Reorder α) : Prop where
  le : r.start ≤ r'.start
  half : r'.start ≤ r.start + SEQNO_SPACE_HALF_SIZE
  received : ∀ k v, r.received.find? k = some v → r'.received.find? k = some v
  delivered : r.delivered <+: r'.delivered

/-- **What holds after the notices `l`**: no assertion failed, and the agreement is that of the numbers without a turn.
The last notice moved the window forward, and a frame that was not old is there. -/
structure Agrees (bufferSize : ℕ) (startingSeq : SequenceNumber) (l : List (Received α)) : Prop where
  reaches : ∃ s, RecipientBlockAckAgreement.run bufferSize startingSeq l = some s ∧
    Agree s (reorderRun bufferSize startingSeq l)
  ordered : (reorderRun bufferSize startingSeq l).delivered.Pairwise fun a b => a.1 < b.1
  moves : ∀ before e, l = before ++ [e] →
    Moves (reorderRun bufferSize startingSeq before) (reorderRun bufferSize startingSeq l)
  accepts : ∀ before (seq : SequenceNumber) m, l = before ++ [.mpdu seq m] →
    number (reorderRun bufferSize startingSeq before) seq <
      (reorderRun bufferSize startingSeq before).start + SEQNO_SPACE_HALF_SIZE →
    ∃ v, (reorderRun bufferSize startingSeq l).received.find? (number (reorderRun bufferSize startingSeq before) seq) = some v

theorem moves_advanceTo {r : Reorder α} {n : ℕ} (hn : r.start ≤ n) (hn' : n ≤ r.start + SEQNO_SPACE_HALF_SIZE)
    (hbound : ∀ e ∈ r.received.toList, e.1 < r.start + SEQNO_SPACE_HALF_SIZE) : Moves r (r.advanceTo n) where
  le := hn.trans (le_firstMissing _ _)
  half := firstMissing_le hn' hbound
  received _ _ h := h
  delivered := Reorder.delivered_prefix_advanceTo hn

theorem moves_receive {r : Reorder α} {size a : ℕ} (ha : r.start ≤ a) (ha' : a < r.start + SEQNO_SPACE_HALF_SIZE)
    (hbound : ∀ e ∈ r.received.toList, e.1 < r.start + SEQNO_SPACE_HALF_SIZE) (m : α) : Moves r (r.receive size a m) := by
  have hmoves := moves_advanceTo (r := { r with received := r.received.insertNew a m }) (n := max r.start (a + 1 - size))
    (le_max_left _ _) (by dsimp only; omega) fun e he => by
      rcases Reorder.mem_insertNew he with heq | he
      · dsimp only
        omega
      · exact hbound e he
  refine ⟨hmoves.le, hmoves.half, fun k v hk => Reorder.find?_insertNew_of_some hk, ?_⟩
  have hsame := Reorder.delivered_insertNew ha m
  rw [← hsame]
  exact hmoves.delivered

theorem Moves.refl (r : Reorder α) : Moves r r := ⟨le_rfl, Nat.le_add_right _ _, fun _ _ h => h, List.prefix_rfl⟩

theorem moves_step {s : RecipientBlockAckAgreement α} {r : Reorder α} {size : ℕ} (hsmall : s.winSizeB ≤ 256)
    (h : Agree s r) (e : Received α) : Moves r (reorderStep r size e) := by
  have hhalf : 256 < SEQNO_SPACE_HALF_SIZE := by decide
  have hbound : ∀ e ∈ r.received.toList, e.1 < r.start + SEQNO_SPACE_HALF_SIZE := by
    intro e he
    have hwindow := h.window e he
    omega
  cases e with
  | mpdu seq m =>
    rw [reorderStep]
    split_ifs with hin
    · exact moves_receive (le_number r seq) hin hbound m
    · exact Moves.refl r
  | bar seq =>
    rw [reorderStep]
    split_ifs with hin
    · exact moves_advanceTo hin.1.le hin.2.le hbound
    · exact Moves.refl r

theorem accepts_step {r : Reorder α} {size : ℕ} {seq : SequenceNumber} (m : α)
    (hin : number r seq < r.start + SEQNO_SPACE_HALF_SIZE) :
    ∃ v, (reorderStep r size (.mpdu seq m)).received.find? (number r seq) = some v := by
  rw [reorderStep, if_pos hin]
  exact Reorder.find?_insertNew_self r.received (number r seq) m

variable {bufferSize : ℕ} {startingSeq : SequenceNumber}

theorem run_concat (l : List (Received α)) (e : Received α) :
    RecipientBlockAckAgreement.run bufferSize startingSeq (l ++ [e]) =
      (RecipientBlockAckAgreement.run bufferSize startingSeq l).bind fun s => s.step e := by
  rw [RecipientBlockAckAgreement.run, List.foldlM_append]
  change (RecipientBlockAckAgreement.run bufferSize startingSeq l).bind _ = _
  refine congrArg _ (funext fun s => ?_)
  rw [List.foldlM_cons]
  exact bind_pure _

theorem reorderRun_concat (l : List (Received α)) (e : Received α) :
    reorderRun bufferSize startingSeq (l ++ [e]) = reorderStep (reorderRun bufferSize startingSeq l) bufferSize e := by
  rw [reorderRun, List.foldl_append]
  rfl

/-- The state that the steps keep. -/
def Good (bufferSize : ℕ) (startingSeq : SequenceNumber) (l : List (Received α)) : Prop :=
  ∃ s, RecipientBlockAckAgreement.run bufferSize startingSeq l = some s ∧ s.Scored bufferSize ∧
    Agree s (reorderRun bufferSize startingSeq l)

theorem good_nil : Good bufferSize startingSeq ([] : List (Received α)) := by
  have hmod : (startingSeq : ℕ) = startingSeq % SEQNO_SPACE_SIZE := (Nat.mod_eq_of_lt startingSeq.2).symm
  refine ⟨_, rfl, ⟨rfl, List.length_replicate, startingSeq.2, fun _ => rfl⟩, ⟨hmod, rfl, rfl⟩, fun e he => ?_⟩
  exact absurd he List.not_mem_nil

/-- A notice in a state of a run. -/
def FitsAfter (bufferSize : ℕ) (startingSeq : SequenceNumber) (l : List (Received α)) (e : Received α) : Prop :=
  ∀ s, RecipientBlockAckAgreement.run bufferSize startingSeq l = some s → Fits s e

theorem Good.step (hsmall : bufferSize ≤ 256) {l : List (Received α)} (h : Good bufferSize startingSeq l) {e : Received α}
    (hfits : FitsAfter bufferSize startingSeq l e) : Good bufferSize startingSeq (l ++ [e]) := by
  obtain ⟨s, hs, hscored, hagree⟩ := h
  have hfit := hfits s hs
  rw [Good, run_concat, reorderRun_concat, hs, Option.bind_some]
  cases e with
  | mpdu seq m =>
    rw [Fits, RecipientBlockAckAgreement.distance_eq hagree.toTracks seq.2] at hfit
    exact RecipientBlockAckAgreement.agree_notifyReceivedMpdu hsmall hagree hscored seq.2 m hfit
  | bar seq => exact RecipientBlockAckAgreement.agree_notifyReceivedBar hsmall hagree hscored seq.2

theorem Good.agrees (hsmall : bufferSize ≤ 256) {l : List (Received α)} (h : Good bufferSize startingSeq l)
    (hbefore : ∀ before e, l = before ++ [e] → Good bufferSize startingSeq before) : Agrees bufferSize startingSeq l where
  reaches := by
    obtain ⟨s, hs, -, hagree⟩ := h
    exact ⟨s, hs, hagree⟩
  ordered := Reorder.sorted_delivered _
  moves before e hl := by
    obtain ⟨s, -, hscored, hagree⟩ := hbefore before e hl
    rw [hl, reorderRun_concat]
    exact moves_step (hscored.winSizeB.trans_le hsmall) hagree e
  accepts before seq m hl hin := by
    rw [hl, reorderRun_concat]
    exact accepts_step m hin

theorem fitsAfter_of_agrees (hsmall : bufferSize ≤ 256) {l : List (Received α)} (h : Good bufferSize startingSeq l)
    {e : Received α} (hagrees : Agrees bufferSize startingSeq (l ++ [e])) : FitsAfter bufferSize startingSeq l e := by
  obtain ⟨s, hs, hscored, hagree⟩ := h
  intro s' hs'
  rw [hs, Option.some_inj] at hs'
  subst hs'
  obtain ⟨t, ht, -⟩ := hagrees.reaches
  rw [run_concat, hs, Option.bind_some] at ht
  cases e with
  | mpdu seq m =>
    rw [Fits, RecipientBlockAckAgreement.distance_eq hagree.toTracks seq.2]
    intro hbeyond hahead
    by_contra hnot
    have hnone := RecipientBlockAckAgreement.notifyReceivedMpdu_eq_none hsmall hagree hscored seq.2 m hbeyond hahead hnot
    rw [RecipientBlockAckAgreement.step, hnone] at ht
    exact Option.some_ne_none t ht.symm
  | bar seq => exact trivial

/-- **Frames are passed up in order**, each one once, and all that is received is passed up when the window has moved past
it, along every run whose frames fit; and only along those. -/
theorem run_reordered_iff (hsmall : bufferSize ≤ 256) (l : List (Received α)) :
    (∀ before, before <+: l → Agrees bufferSize startingSeq before) ↔
      ∀ i : Fin l.length, FitsAfter bufferSize startingSeq (l.take i) (l.get i) := by
  rw [← RunLib.forall_step_iff_forall_fin]
  -- the steps before the last one are good as well
  have hiff := RunLib.forall_prefix_iff_of_inv (P := Agrees bufferSize startingSeq)
    (R := fun l : List (Received α) => Good bufferSize startingSeq l ∧
      ∀ before e, l = before ++ [e] → Good bufferSize startingSeq before)
    (Q := FitsAfter bufferSize startingSeq) ⟨good_nil, by simp⟩ (fun l h => h.1.agrees hsmall h.2)
    (fun l e h hfits => ⟨h.1.step hsmall hfits, fun before e' hl => ?_⟩)
    (fun l e h hagrees => fitsAfter_of_agrees hsmall h.1 hagrees) l
  · exact hiff
  · rw [(List.append_inj' hl rfl).1] at h
    exact h.1

/-- A frame in the window, and a request after the turn of the numbers. -/
theorem run_reordered_bar :
    Agrees 64 ⟨4090, by decide⟩ [Received.mpdu ⟨4090, by decide⟩ (), .bar ⟨58, by decide⟩] := by
  refine (run_reordered_iff (by decide) _).mpr (fun i => ?_) _ List.prefix_rfl
  fin_cases i
  · rintro s ⟨⟩
    exact fun hbeyond => absurd hbeyond (by decide)
  · exact fun s _ => trivial

/-- A frame that is one beyond the window, after the turn of the numbers. -/
theorem not_run_reordered : ¬ ∀ before, before <+: [Received.mpdu ⟨58, by decide⟩ ()] → Agrees 64 ⟨4090, by decide⟩ before := by
  intro h
  obtain ⟨s, hs, -⟩ := (h _ List.prefix_rfl).reaches
  have hnone : RecipientBlockAckAgreement.run 64 ⟨4090, by decide⟩ [Received.mpdu ⟨58, by decide⟩ ()] = none := by decide
  rw [hnone] at hs
  exact Option.some_ne_none s hs.symm

end Runs

end Ns3Ndn.Wifi
