import Ns3Ndn.Wifi.RecipientBlockAck

/-!
# The window of sequence numbers

`wifi/model/block-ack-window.cc`: a window over the sequence numbers, with a bit for each of them, in an array that is used
as a ring.

* `bit`: the bits from the start of the window on; `Valid`;
* `advanceTxWindow`, **`advanceTxWindow_spec`**: the window moves to the first bit that is not set.
-/

namespace Ns3Ndn.Wifi

namespace BlockAckWindow

def getAt (w : BlockAckWindow) (distance : ℕ) : Option Bool :=
  if distance < w.getWinSize then w.window[(w.head + distance) % w.getWinSize]? else none

def bit (w : BlockAckWindow) (i : ℕ) : Bool := w.window.getD ((w.head + i) % w.getWinSize) false

structure Valid (w : BlockAckWindow) : Prop where
  head_lt : w.head < w.getWinSize
  winStart_lt : w.winStart < SEQNO_SPACE_SIZE

/-- The loop of `OriginatorBlockAckAgreement::AdvanceTxWindow`, with a bound for its turns. -/
def advanceTxLoop : ℕ → BlockAckWindow → Option BlockAckWindow
  | 0, _ => none
  | fuel + 1, w => (w.getAt 0).bind fun b => if b then advanceTxLoop fuel (w.advance 1) else some w

def advanceTxWindow (w : BlockAckWindow) : Option BlockAckWindow := advanceTxLoop (w.getWinSize + 1) w

section Bits

variable {w w' : BlockAckWindow} {i d count n : ℕ}

theorem Valid.getWinSize_pos (h : w.Valid) : 0 < w.getWinSize := (Nat.zero_le _).trans_lt h.head_lt

theorem Valid.init {start size : ℕ} (hstart : start < SEQNO_SPACE_SIZE) (hsize : 0 < size) : (init start size).Valid := by
  refine ⟨?_, hstart⟩
  rw [BlockAckWindow.init, getWinSize, List.length_replicate]
  exact hsize

theorem getWinSize_init (start size : ℕ) : (init start size).getWinSize = size := List.length_replicate

theorem bit_init (start size i : ℕ) : (init start size).bit i = false := by
  rw [bit, BlockAckWindow.init, List.getD_eq_getElem?_getD, List.getElem?_replicate]
  split_ifs
  · rfl
  · rfl

theorem getAt_eq (h : w.Valid) (hi : i < w.getWinSize) : w.getAt i = some (w.bit i) := by
  have hlt : (w.head + i) % w.getWinSize < w.window.length := Nat.mod_lt _ h.getWinSize_pos
  rw [getAt, if_pos hi, bit, List.getD_eq_getElem?_getD, List.getElem?_eq_getElem hlt, Option.getD_some]

theorem place_inj (hi : i < w.getWinSize) (hd : d < w.getWinSize) :
    (w.head + i) % w.getWinSize = (w.head + d) % w.getWinSize ↔ i = d := by
  refine ⟨fun h => ?_, fun h => by rw [h]⟩
  have h' := Nat.ModEq.add_left_cancel' w.head h
  rwa [Nat.ModEq, Nat.mod_eq_of_lt hi, Nat.mod_eq_of_lt hd] at h'

theorem setAt_isSome (hd : d < w.getWinSize) : ∃ w', w.setAt d = some w' := by
  rw [setAt, if_pos hd]
  exact ⟨_, rfl⟩

theorem setAt_eq_some (h : w.setAt d = some w') : d < w.getWinSize ∧ w'.winStart = w.winStart ∧
    w'.getWinSize = w.getWinSize ∧ w'.head = w.head := by
  rw [setAt, Option.ite_none_right_eq_some] at h
  obtain rfl := Option.some.inj h.2
  exact ⟨h.1, rfl, List.length_set, rfl⟩

theorem bit_setAt (h : w.setAt d = some w') (hi : i < w.getWinSize) : w'.bit i = if i = d then true else w.bit i := by
  obtain ⟨hd, -, hsize, -⟩ := setAt_eq_some h
  rw [setAt, if_pos hd] at h
  obtain rfl := Option.some.inj h
  rw [bit, hsize, bit, List.getD_eq_getElem?_getD, List.getD_eq_getElem?_getD, List.getElem?_set]
  dsimp only
  have hlt : (w.head + d) % w.getWinSize < w.window.length := Nat.mod_lt _ ((Nat.zero_le _).trans_lt hd)
  split_ifs with hplace hid hid
  · rfl
  · exact absurd ((place_inj hi hd).mp hplace.symm) hid
  · rw [hid] at hplace
    exact absurd rfl hplace
  · rfl

/-- One turn of `Advance` takes the first bit and puts a clear one behind the others. -/
theorem bit_turn (hhead : w.head < w.getWinSize) (hi : i < w.getWinSize) :
    bit { w with window := w.window.set w.head false, head := (w.head + 1) % w.getWinSize } i =
      if i + 1 < w.getWinSize then w.bit (i + 1) else false := by
  have hsize : getWinSize { w with window := w.window.set w.head false, head := (w.head + 1) % w.getWinSize } =
      w.getWinSize := List.length_set
  have hplace : ((w.head + 1) % w.getWinSize + i) % w.getWinSize = (w.head + (i + 1)) % w.getWinSize := by
    rw [Nat.mod_add_mod, Nat.add_assoc, Nat.add_comm 1 i]
  rw [bit, hsize, List.getD_eq_getElem?_getD, hplace]
  by_cases hlt : i + 1 < w.getWinSize
  · -- the head is no place of the others
    have hne : w.head ≠ (w.head + (i + 1)) % w.getWinSize := by
      intro heq
      have hhead' : (w.head + 0) % w.getWinSize = (w.head + (i + 1)) % w.getWinSize := by
        rw [Nat.add_zero, Nat.mod_eq_of_lt hhead]
        exact heq
      exact absurd ((place_inj (by omega) hlt).mp hhead') (Nat.succ_ne_zero i).symm
    rw [if_pos hlt, List.getElem?_set_ne hne, bit, List.getD_eq_getElem?_getD]
  · have hend : i + 1 = w.getWinSize := by omega
    rw [if_neg hlt, hend, Nat.add_mod_right, Nat.mod_eq_of_lt hhead, List.getElem?_set_self hhead, Option.getD_some]

theorem clear_spec (hhead : w.head < w.getWinSize) : (clear count w).head < w.getWinSize ∧
    (clear count w).getWinSize = w.getWinSize ∧
      ∀ i < w.getWinSize, (clear count w).bit i = if i + count < w.getWinSize then w.bit (i + count) else false := by
  induction count generalizing w with
  | zero => exact ⟨hhead, rfl, fun i hi => by rw [Nat.add_zero, if_pos hi, clear]⟩
  | succ count ih =>
    have hsize : getWinSize { w with window := w.window.set w.head false, head := (w.head + 1) % w.getWinSize } =
        w.getWinSize := List.length_set
    have hhead' : (w.head + 1) % w.getWinSize < w.getWinSize := Nat.mod_lt _ ((Nat.zero_le _).trans_lt hhead)
    obtain ⟨hlt, hlen, hbits⟩ := ih (w := { w with
      window := w.window.set w.head false
      head := (w.head + 1) % w.getWinSize }) (by rw [hsize]; exact hhead')
    rw [hsize] at hlt hlen hbits
    refine ⟨hlt, hlen, fun i hi => ?_⟩
    rw [clear, hbits i hi]
    split_ifs with hin hin' hin'
    · rw [bit_turn hhead hin, if_pos (by omega), Nat.add_assoc]
    · rw [bit_turn hhead hin, if_neg (by omega)]
    · omega
    · rfl

theorem getWinSize_advance (hhead : w.head < w.getWinSize) : (w.advance count).getWinSize = w.getWinSize := by
  rw [advance]
  split_ifs
  · exact getWinSize_init _ _
  · exact (clear_spec hhead).2.1

theorem winStart_advance (w : BlockAckWindow) (count : ℕ) :
    (w.advance count).winStart = (w.winStart + count) % SEQNO_SPACE_SIZE := by
  rw [advance]
  split_ifs
  · rfl
  · rfl

/-- **`Advance`** moves the bits. -/
theorem bit_advance (hhead : w.head < w.getWinSize) (hi : i < w.getWinSize) :
    (w.advance count).bit i = if i + count < w.getWinSize then w.bit (i + count) else false := by
  rw [advance]
  split_ifs with hall hin hin
  · omega
  · exact bit_init _ _ _
  · rw [← if_pos (α := Bool) (t := w.bit (i + count)) (e := false) hin]
    exact (clear_spec hhead).2.2 i hi
  · rw [← if_neg (α := Bool) (t := w.bit (i + count)) (e := false) hin]
    exact (clear_spec hhead).2.2 i hi

theorem Valid.advance (h : w.Valid) (count : ℕ) : (w.advance count).Valid := by
  refine ⟨?_, ?_⟩
  · rw [getWinSize_advance h.head_lt, BlockAckWindow.advance]
    split_ifs
    · exact h.getWinSize_pos
    · exact (clear_spec h.head_lt).1
  · rw [winStart_advance]
    exact Nat.mod_lt _ (by decide)

theorem Valid.setAt (h : w.Valid) (hset : w.setAt d = some w') : w'.Valid := by
  obtain ⟨-, hstart, hsize, hhead⟩ := setAt_eq_some hset
  exact ⟨by rw [hhead, hsize]; exact h.head_lt, by rw [hstart]; exact h.winStart_lt⟩

end Bits

/-! ## The transmit window moves on -/

structure Moved (w w' : BlockAckWindow) (n : ℕ) : Prop where
  valid : w'.Valid
  size : w'.getWinSize = w.getWinSize
  winStart : w'.winStart = (w.winStart + n) % SEQNO_SPACE_SIZE
  bits : ∀ i < w.getWinSize, w'.bit i = if i + n < w.getWinSize then w.bit (i + n) else false

section Moved

variable {w w' w'' : BlockAckWindow} {n m : ℕ}

theorem Moved.refl (h : w.Valid) : Moved w w 0 :=
  ⟨h, rfl, (Nat.mod_eq_of_lt h.winStart_lt).symm, fun i hi => by rw [Nat.add_zero, if_pos hi]⟩

theorem Moved.advance (h : w.Valid) (n : ℕ) : Moved w (w.advance n) n :=
  ⟨h.advance n, getWinSize_advance h.head_lt, winStart_advance w n, fun _ hi => bit_advance h.head_lt hi⟩

theorem Moved.trans (h : Moved w w' n) (h' : Moved w' w'' m) : Moved w w'' (n + m) := by
  refine ⟨h'.valid, h'.size.trans h.size, ?_, fun i hi => ?_⟩
  · rw [h'.winStart, h.winStart, Nat.mod_add_mod, Nat.add_assoc]
  · rw [h'.bits i (by rw [h.size]; exact hi), h.size]
    by_cases hm : i + m < w.getWinSize
    · rw [if_pos hm, h.bits _ hm, Nat.add_assoc, Nat.add_comm m n]
    · rw [if_neg hm, if_neg (by omega)]

theorem advanceTxLoop_spec (h : w.Valid) {fuel : ℕ} (hn : n ≤ w.getWinSize) (hfuel : n < fuel)
    (hset : ∀ i < n, w.bit i = true) (hclear : n < w.getWinSize → w.bit n = false) :
    ∃ w', advanceTxLoop fuel w = some w' ∧ Moved w w' n ∧ w'.bit 0 = false := by
  induction fuel generalizing w n with
  | zero => omega
  | succ fuel ih =>
    rw [advanceTxLoop, getAt_eq h h.getWinSize_pos, Option.bind_some]
    cases n with
    | zero =>
      have hzero := hclear h.getWinSize_pos
      rw [hzero, if_neg Bool.false_ne_true]
      exact ⟨w, rfl, .refl h, hzero⟩
    | succ n =>
      have hmoved := Moved.advance h 1
      have hsize := hmoved.size
      rw [hset 0 (Nat.succ_pos n), if_pos rfl]
      obtain ⟨w', hw', hmoved', hzero⟩ := ih hmoved.valid (n := n) (by omega) (by omega)
        (fun i hi => by rw [hmoved.bits i (by omega), if_pos (by omega), hset (i + 1) (by omega)])
        (fun hlt => by
          rw [hmoved.bits n (by omega)]
          split_ifs with hin
          · exact hclear hin
          · rfl)
      refine ⟨w', hw', ?_, hzero⟩
      rw [Nat.add_comm n 1]
      exact hmoved.trans hmoved'

theorem exists_first_clear (w : BlockAckWindow) : ∃ n ≤ w.getWinSize, (∀ i < n, w.bit i = true) ∧
    (n < w.getWinSize → w.bit n = false) := by
  by_cases h : ∃ n, n < w.getWinSize ∧ w.bit n = false
  · refine ⟨Nat.find h, (Nat.find_spec h).1.le, fun i hi => ?_, fun _ => (Nat.find_spec h).2⟩
    have hnot := Nat.find_min h hi
    rw [not_and, Bool.not_eq_false] at hnot
    exact hnot (hi.trans (Nat.find_spec h).1)
  · refine ⟨w.getWinSize, le_rfl, fun i hi => ?_, fun hlt => absurd hlt (lt_irrefl _)⟩
    by_contra hclear
    exact h ⟨i, hi, Bool.eq_false_iff.mpr hclear⟩

/-- **The window moves to the first bit that is not set**, and there is a bit for it. -/
theorem advanceTxWindow_spec (h : w.Valid) : ∃ w' n, w.advanceTxWindow = some w' ∧ Moved w w' n ∧ w'.bit 0 = false ∧
    n ≤ w.getWinSize ∧ ∀ i < n, w.bit i = true := by
  obtain ⟨n, hn, hset, hclear⟩ := exists_first_clear w
  obtain ⟨w', hw', hmoved, hzero⟩ := advanceTxLoop_spec h hn (Nat.lt_succ_of_le hn) hset hclear
  exact ⟨w', n, hw', hmoved, hzero, hn, hset⟩

end Moved

end BlockAckWindow

end Ns3Ndn.Wifi
