import Ns3Ndn.Network.BufferSharing

/-!
# A buffer behind another

`network/model/buffer.cc`, `AddAtEnd` of a buffer: the bytes of the other buffer are copied behind those of this one, which is
first replaced by a copy without a zero area. When the zeros of the other come right behind the zeros of this one, there is a
shorter way. The zero areas become one, and only the bytes behind them are copied.

`Write` of a range takes the offset of its iterator for the place in the block. On the shorter way the bytes go as far
behind their place as the zero area is long.

* `Inv.createFullCopy`, **`Inv.addBufferAtEnd_copied`**: through the copy, the contents are one behind the other;
* **`appends_iff`**: when that is the same.
-/

set_option linter.unusedSectionVars false

namespace Ns3Ndn.Network

open Function PoolLib SliceLib

def memset (bytes : List UInt8) (off : ℕ) (data : UInt8) (size : ℕ) : Option (List UInt8) :=
  if size = 0 then some bytes else store bytes off (List.replicate size data)

def memcpy (bytes : List UInt8) (off : ℕ) (src : List UInt8) (srcOff size : ℕ) : Option (List UInt8) :=
  if size = 0 then some bytes else (load src srcOff size).bind (store bytes off)

namespace Iterator

variable (it : Iterator)

/-- `WriteU8`, with a length. -/
def writeU8s (bytes : List UInt8) (data : UInt8) (len : ℕ) : Option (List UInt8) :=
  if it.checkNoZero it.current (it.current + len) then
    memset bytes (if it.current ≤ it.zeroStart then it.current else it.current - (it.zeroEnd - it.zeroStart)) data len
  else none

def writeRange (bytes : List UInt8) (start stop : Iterator) (src : List UInt8) : Option (List UInt8) :=
  if start.current ≤ stop.current ∧ start.zeroStart = stop.zeroStart ∧ start.zeroEnd = stop.zeroEnd ∧
      it.checkNoZero it.current (it.current + (stop.current - start.current)) = true then
    let size := stop.current - start.current
    let toCopy := if start.current ≤ start.zeroStart then min size (start.zeroStart - start.current) else 0
    (memcpy bytes it.current src start.current toCopy).bind fun bytes =>
      let startCurrent := start.current + toCopy
      let current := it.current + toCopy
      let size := size - toCopy
      let toCopy := if startCurrent ≤ start.zeroEnd then min size (start.zeroEnd - startCurrent) else 0
      (memset bytes current 0 toCopy).bind fun bytes =>
        let startCurrent := startCurrent + toCopy
        let current := current + toCopy
        let size := size - toCopy
        memcpy bytes current src (startCurrent - (start.zeroEnd - start.zeroStart)) (min size (start.dataEnd - startCurrent))
  else none

end Iterator

namespace Buffer

variable (b o : Buffer)

/-- The zeros of `o` come right behind those of `b`, in a block of `count` users. -/
def adjacentZeroAreas (count : ℕ) (d : Data) : Bool :=
  count = 1 && (b.end_ = b.zeroAreaEnd || b.zeroAreaStart = b.zeroAreaEnd) && b.end_ = d.dirtyEnd &&
    o.start = o.zeroAreaStart && o.zeroAreaEnd - o.zeroAreaStart > 0

def addZeros (zeroSize : ℕ) : Buffer :=
  { b with
    zeroAreaStart := if b.zeroAreaStart = b.zeroAreaEnd then b.end_ else b.zeroAreaStart
    zeroAreaEnd := b.end_ + zeroSize
    end_ := b.end_ + zeroSize }

end Buffer

namespace Memory

variable {ι : Type} [DecidableEq ι] (junk : ℕ → ℕ → UInt8)

def writeU8s (s : Memory ι) (b : Buffer) (it : Iterator) (data : UInt8) (len : ℕ) : Option (Memory ι) :=
  (s.pool.val b.data).bind fun d => (it.writeU8s d.bytes data len).map fun bytes => s.setBytes b.data d bytes

/-- `Write`, of bytes from a place in the block of `o`. -/
def writeFrom (s : Memory ι) (b : Buffer) (it : Iterator) (o : Buffer) (off size : ℕ) : Option (Memory ι) :=
  (s.pool.val o.data).bind fun d => (load d.bytes off size).bind fun bytes => s.writeBytes b it bytes false

def writeRange (s : Memory ι) (b : Buffer) (it : Iterator) (o : Buffer) (start stop : Iterator) : Option (Memory ι) :=
  if b.data ≠ o.data then
    (s.pool.val b.data).bind fun d => (s.pool.val o.data).bind fun src =>
      (it.writeRange d.bytes start stop src.bytes).map fun bytes => s.setBytes b.data d bytes
  else none

def createFullCopy (s : Memory ι) (t : ι) (b : Buffer) : Option (Memory ι) :=
  if b.zeroAreaEnd - b.zeroAreaStart ≠ 0 then
    (s.initBuffer junk t 0).bind fun s => (s.buffers t).bind fun tmp =>
      (s.addAtStart junk t tmp (b.zeroAreaEnd - b.zeroAreaStart)).bind fun s => (s.buffers t).bind fun tmp =>
      (s.writeU8s tmp tmp.begin 0 (b.zeroAreaEnd - b.zeroAreaStart)).bind fun s => (s.buffers t).bind fun tmp =>
      let dataStart := b.zeroAreaStart - b.start
      (s.addAtStart junk t tmp dataStart).bind fun s => (s.buffers t).bind fun tmp =>
      (s.writeFrom tmp tmp.begin b b.start dataStart).bind fun s => (s.buffers t).bind fun tmp =>
      let dataEnd := b.end_ - b.zeroAreaEnd
      (s.addAtEnd junk t tmp dataEnd).bind fun s => (s.buffers t).bind fun tmp =>
      (tmp.endIterator.prev dataEnd).bind fun i => s.writeFrom tmp i b b.zeroAreaStart dataEnd
  else some (s.copy t b)

def addZeros (s : Memory ι) (i : ι) (b : Buffer) (d : Data) (zeroSize : ℕ) : Memory ι :=
  { s with pool := s.pool.setVal b.data { d with dirtyEnd := (b.addZeros zeroSize).zeroAreaEnd } }.setBuffer i
    (b.addZeros zeroSize)

/-- `AddAtEnd` of the buffer `o`, with `t` for the copy. -/
def addBufferAtEnd (s : Memory ι) (i t : ι) (b o : Buffer) : Option (Memory ι) :=
  (s.pool.val b.data).bind fun d =>
    if b.adjacentZeroAreas o (s.pool.count b.data) d then
      let zeroSize := o.zeroAreaEnd - o.zeroAreaStart
      let endData := o.end_ - o.zeroAreaEnd
      ((s.addZeros i b d zeroSize).addAtEnd junk i (b.addZeros zeroSize) endData).bind fun s => (s.buffers i).bind fun b =>
        (b.endIterator.prev endData).bind fun dst => (o.endIterator.prev endData).bind fun src =>
          s.writeRange b dst o src o.endIterator
    else
      (s.createFullCopy junk t b).bind fun s => (s.buffers t).bind fun tmp =>
        (s.assign i b tmp).bind fun s => (s.destroy t tmp).bind fun s => (s.buffers i).bind fun b =>
        (s.addAtEnd junk i b o.getSize).bind fun s => (s.buffers i).bind fun b =>
        (b.endIterator.prev o.getSize).bind fun destStart => s.writeRange b destStart o o.begin o.endIterator

/-- The bytes of an instance. -/
def copyData (s : Memory ι) (i : ι) : Option (List UInt8) :=
  (s.buffers i).bind fun b => (s.pool.val b.data).bind fun d => b.copyData d.bytes b.getSize

/-- What is in the block behind the bytes of a buffer, where it will have `e` more. -/
def staleBytes (s : Memory ι) (b : Buffer) (d : Data) (e : ℕ) : List UInt8 :=
  if b.getInternalEnd + e ≤ d.size then d.bytes.drop b.getInternalEnd
  else
    let created := create junk s.pool (b.getInternalSize + e)
    (created.1.val created.2).elim [] fun w => w.bytes.drop b.getInternalSize

end Memory

/-! ## Writes of a range -/

section Ranges

variable {bytes src : List UInt8} {off srcOff n : ℕ}

theorem memset_eq (h : off + n ≤ bytes.length) (data : UInt8) :
    memset bytes off data n = some (overwrite bytes off (List.replicate n data)) := by
  unfold memset
  split_ifs with hn
  · rw [hn, List.replicate_zero, overwrite_nil]
  · exact Iterator.store_eq (by rw [List.length_replicate]; exact h)

theorem memcpy_eq (h : off + n ≤ bytes.length) (hsrc : srcOff + n ≤ src.length) :
    memcpy bytes off src srcOff n = some (overwrite bytes off (slice src srcOff (srcOff + n))) := by
  unfold memcpy
  split_ifs with hn
  · rw [hn, Nat.add_zero, slice_self, overwrite_nil]
  · rw [Buffer.load_eq hsrc, Option.bind_some]
    exact Iterator.store_eq (by rw [length_slice hsrc]; omega)

variable {b o : Buffer} {d : Data} {z : ℕ} {it : Iterator}

theorem Iterator.writeRange_parts (bytes src : List UInt8) (start stop : Iterator) (n₁ n₂ n₃ : ℕ) (hle : start.current ≤ stop.current)
    (hstart : start.zeroStart = stop.zeroStart) (hstop : start.zeroEnd = stop.zeroEnd)
    (hcheck : it.checkNoZero it.current (it.current + (stop.current - start.current)) = true)
    (h₁ : n₁ = if start.current ≤ start.zeroStart then
      min (stop.current - start.current) (start.zeroStart - start.current) else 0)
    (h₂ : n₂ = if start.current + n₁ ≤ start.zeroEnd then
      min (stop.current - start.current - n₁) (start.zeroEnd - (start.current + n₁)) else 0)
    (h₃ : n₃ = min (stop.current - start.current - n₁ - n₂) (start.dataEnd - (start.current + n₁ + n₂))) :
    it.writeRange bytes start stop src = (memcpy bytes it.current src start.current n₁).bind fun bytes =>
      (memset bytes (it.current + n₁) 0 n₂).bind fun bytes =>
        memcpy bytes (it.current + n₁ + n₂) src (start.current + n₁ + n₂ - (start.zeroEnd - start.zeroStart)) n₃ := by
  subst h₁ h₂ h₃
  exact if_pos ⟨hle, hstart, hstop, hcheck⟩

/-- **A whole buffer** is written as its content. -/
theorem Buffer.Ok.writeRange (h : o.Ok d z) (hcheck : it.checkNoZero it.current (it.current + o.getSize) = true)
    (hlen : it.current + o.getSize ≤ bytes.length) :
    it.writeRange bytes o.begin o.endIterator d.bytes = some (overwrite bytes it.current (o.content d.bytes)) := by
  obtain ⟨k, y, m, h₁, h₂, h₃, -, hle⟩ := h.parts
  have hall : o.end_ - o.start = k + y + m := by
    rw [h₃, Nat.add_assoc, Nat.add_assoc, Nat.add_sub_cancel_left, ← Nat.add_assoc]
  rw [Buffer.getSize, hall] at hlen
  have hhead : (slice d.bytes o.start (o.start + k)).length = k := by
    rw [length_slice (by omega), Nat.add_sub_cancel_left]
  have htail : (slice d.bytes (o.start + k) (o.start + k + m)).length = m := by
    rw [length_slice hle, Nat.add_sub_cancel_left]
  have hsrc : o.start + k + y - (o.zeroAreaEnd - o.zeroAreaStart) = o.start + k := by
    rw [h₁, h₂, Nat.add_sub_cancel_left, Nat.add_sub_cancel]
  rw [Iterator.writeRange_parts bytes d.bytes o.begin o.endIterator k y m ?_ rfl rfl hcheck ?_ ?_ ?_]
  · dsimp only [Buffer.begin]
    rw [hsrc, memcpy_eq (by omega) (by omega), Option.bind_some, memset_eq (by rw [length_overwrite (by omega)]; omega),
      Option.bind_some]
    have htwo := @overwrite_overwrite _ bytes (slice d.bytes o.start (o.start + k)) it.current (List.replicate y 0)
      (by rw [hhead, List.length_replicate]; omega)
    have hthree := @overwrite_overwrite _ bytes (slice d.bytes o.start (o.start + k) ++ List.replicate y 0) it.current
      (slice d.bytes (o.start + k) (o.start + k + m)) (by rw [List.length_append, hhead, htail, List.length_replicate]; omega)
    rw [hhead] at htwo
    rw [List.length_append, hhead, List.length_replicate, ← Nat.add_assoc] at hthree
    rw [htwo, memcpy_eq ?_ hle, hthree, Buffer.content_parts h₁ h₂ h₃, List.append_assoc]
    rw [length_overwrite]
    · omega
    · rw [List.length_append, hhead, List.length_replicate]
      omega
  · change o.start ≤ o.end_
    rw [h₃, Nat.add_assoc, Nat.add_assoc]
    exact Nat.le_add_right _ _
  · change k = if o.start ≤ o.zeroAreaStart then min (o.end_ - o.start) (o.zeroAreaStart - o.start) else 0
    rw [hall, h₁, if_pos (Nat.le_add_right _ k), Nat.add_sub_cancel_left, Nat.add_assoc, min_eq_right (Nat.le_add_right _ _)]
  · change y = if o.start + k ≤ o.zeroAreaEnd then min (o.end_ - o.start - k) (o.zeroAreaEnd - (o.start + k)) else 0
    rw [hall, h₂, if_pos (Nat.le_add_right _ y), Nat.add_sub_cancel_left, Nat.add_assoc, Nat.add_sub_cancel_left,
      min_eq_right (Nat.le_add_right y m)]
  · dsimp only [Buffer.begin, Buffer.endIterator]
    rw [hall, h₃, Nat.add_sub_cancel_left, Nat.add_assoc, Nat.add_sub_cancel_left, Nat.add_sub_cancel_left, min_self]

/-- **The bytes behind the zeros** are written as they are. -/
theorem Buffer.Ok.writeRange_tail (h : o.Ok d z) (hzeros : o.zeroAreaStart < o.zeroAreaEnd)
    (hcheck : it.checkNoZero it.current (it.current + (o.end_ - o.zeroAreaEnd)) = true) :
    it.writeRange bytes { o.endIterator with current := o.zeroAreaEnd } o.endIterator d.bytes =
      if o.end_ = o.zeroAreaEnd then some bytes
      else store bytes it.current (slice d.bytes o.zeroAreaStart o.getInternalEnd) := by
  have hend := h.internalEnd
  have h₃ := h.end_le
  have h₄ := h.size_le
  have hparts := Iterator.writeRange_parts bytes d.bytes { o.endIterator with current := o.zeroAreaEnd } o.endIterator 0 0
    (o.end_ - o.zeroAreaEnd) h₃ rfl rfl hcheck
  simp only [Buffer.endIterator, Nat.not_le.mpr hzeros, if_false, Nat.add_zero, le_refl, if_true, Nat.sub_self, Nat.min_zero,
    Nat.sub_zero, Nat.min_self, Nat.sub_sub_self h.zero_le, memcpy, memset, Option.bind_some, true_imp_iff] at hparts
  rw [Buffer.endIterator, hparts]
  by_cases htail : o.end_ = o.zeroAreaEnd
  · rw [if_pos htail, if_pos (by omega)]
  · rw [if_neg htail, if_neg (by omega), Buffer.load_eq (by omega), Option.bind_some]
    congr 2
    omega

theorem Iterator.At.checkNoZero (h : it.At off n) : it.checkNoZero it.current (it.current + n) = true := by
  have hstart := h.start_le
  have hend := h.le_end
  have hzero := h.zero_le
  have hside := h.side
  simp only [Iterator.checkNoZero, Bool.not_eq_true', Bool.or_eq_false_iff, Bool.and_eq_false_iff, decide_eq_false_iff_not]
  omega

theorem Iterator.checkNoZero_of_le {lo hi : ℕ} (hstart : it.dataStart ≤ lo) (hend : hi ≤ it.dataEnd) (hzero : it.zeroEnd ≤ lo) :
    it.checkNoZero lo hi = true := by
  simp only [Iterator.checkNoZero, Bool.not_eq_true', Bool.or_eq_false_iff, Bool.and_eq_false_iff, decide_eq_false_iff_not]
  omega

/-- **More zeros** do not move the bytes. -/
theorem Buffer.Ok.addZeros (h : b.Ok d z) (hadj : b.end_ = b.zeroAreaEnd ∨ b.zeroAreaStart = b.zeroAreaEnd) (n : ℕ) :
    (b.addZeros n).Ok { d with dirtyEnd := (b.addZeros n).zeroAreaEnd } (b.zeroAreaEnd - b.zeroAreaStart + n) ∧
      (b.addZeros n).content d.bytes = b.content d.bytes ++ List.replicate n 0 ∧
      (b.addZeros n).zeroAreaEnd - (b.addZeros n).zeroAreaStart = b.zeroAreaEnd - b.zeroAreaStart + n ∧
      (b.addZeros n).getInternalEnd = b.getInternalEnd ∧ (b.addZeros n).getInternalSize = b.getInternalSize := by
  have hend := h.internalEnd
  have h₁ := h.start_le
  have h₂ := h.zero_le
  have h₃ := h.end_le
  have h₄ := h.size_le
  -- the zero area starts where the bytes end
  have hstart : (b.addZeros n).zeroAreaStart = b.getInternalEnd := by
    simp only [Buffer.addZeros]
    split_ifs <;> omega
  have hzeros : (b.addZeros n).zeroAreaEnd - (b.addZeros n).zeroAreaStart = b.zeroAreaEnd - b.zeroAreaStart + n := by
    rw [hstart]
    simp only [Buffer.addZeros]
    omega
  have hsame : (b.addZeros n).getInternalEnd = b.getInternalEnd := by
    rw [Buffer.getInternalEnd, hzeros]
    simp only [Buffer.addZeros]
    omega
  have hcontent : b.content d.bytes =
      slice d.bytes b.start b.getInternalEnd ++ List.replicate (b.zeroAreaEnd - b.zeroAreaStart) 0 := by
    rcases hadj with hadj | hadj
    · rw [Buffer.content, show b.getInternalEnd = b.zeroAreaStart by omega, slice_self, List.append_nil]
    · rw [Buffer.content, hadj, Nat.sub_self, List.replicate_zero, List.append_nil, List.append_nil, ← hadj,
        slice_append_slice h₁ hend.1 (by omega)]
  refine ⟨⟨?_, ?_, le_rfl, h.dirtyStart_le, hzeros.le, ?_, ?_⟩, ?_, hzeros, hsame, ?_⟩
  · rw [hstart]
    exact h₁.trans hend.1
  · rw [hstart]
    simp only [Buffer.addZeros]
    omega
  · rw [hsame]
    simp only [Buffer.addZeros]
    omega
  · rw [hsame]
    exact h₄
  · rw [Buffer.content, hsame, hstart, slice_self, List.append_nil, ← hstart, hzeros, hstart, hcontent, List.append_assoc,
      List.replicate_append_replicate]
    rfl
  · rw [Buffer.getInternalSize, hstart, hend.2.2]
    simp only [Buffer.addZeros]
    omega

end Ranges

/-! ## The other instances -/

namespace Memory

variable {ι : Type} [DecidableEq ι] {s s' : Memory ι} {i : ι} {b o : Buffer}

theorem release_buffers {a : ℕ} (h : s.release a = some s') : s'.buffers = s.buffers := by
  unfold release at h
  obtain ⟨d, -, rfl⟩ := Option.map_eq_some_iff.mp h
  split_ifs <;> rfl

theorem destroy_buffers (h : s.destroy i b = some s') : s'.buffers = update s.buffers i none := release_buffers h

theorem assign_buffers (h : s.assign i b o = some s') : s'.buffers = update s.buffers i (some o) := by
  unfold Memory.assign at h
  obtain ⟨s₁, hs₁, rfl⟩ := Option.map_eq_some_iff.mp h
  split_ifs at hs₁ with hne
  · obtain ⟨s₂, hs₂, rfl⟩ := Option.map_eq_some_iff.mp hs₁
    change update s₂.buffers i (some o) = _
    rw [release_buffers hs₂]
  · rw [← Option.some_inj.mp hs₁]
    rfl

/-- Only the buffer of one instance changes. Without zeros it stays without them, and it takes no block of another. -/
def Reshaped (s s' : Memory ι) (i : ι) (b : Buffer) : Prop :=
  ∃ b', s'.buffers = update s.buffers i (some b') ∧ (b.zeroAreaStart = b.zeroAreaEnd → b'.zeroAreaStart = b'.zeroAreaEnd) ∧
    ∀ j x, s.buffers j = some x → x.data ≠ b.data → x.data ≠ b'.data

variable [Fintype ι] (junk : ℕ → ℕ → UInt8) {z : ℕ → ℕ} {c : Contents ι}

theorem Inv.ne_create (h : s.Inv z c) (size : ℕ) {j : ι} {x : Buffer} (hx : s.buffers j = some x) :
    x.data ≠ (create junk s.pool size).2 := fun heq => uses_ne_zero hx (heq ▸ (create_eq junk h.pool size).1)

theorem Inv.addAtStart_reshaped (h : s.Inv z c) {n : ℕ} (hadd : s.addAtStart junk i b n = some s') : s.Reshaped s' i b := by
  unfold Memory.addAtStart at hadd
  obtain ⟨d, -, hadd⟩ := Option.bind_eq_some_iff.mp hadd
  dsimp only at hadd
  split_ifs at hadd
  · rw [← Option.some_inj.mp hadd]
    exact ⟨_, rfl, id, fun j x _ hne => hne⟩
  · obtain ⟨w, -, hadd⟩ := Option.bind_eq_some_iff.mp hadd
    obtain ⟨old, -, hadd⟩ := Option.bind_eq_some_iff.mp hadd
    obtain ⟨bytes, -, hadd⟩ := Option.bind_eq_some_iff.mp hadd
    refine ⟨_, release_buffers hadd, fun hzero => ?_, fun j x hx _ => h.ne_create junk _ hx⟩
    simp only [Buffer.noteZeroArea, hzero]

theorem Inv.addAtEnd_reshaped (h : s.Inv z c) {e : ℕ} (hadd : s.addAtEnd junk i b e = some s') : s.Reshaped s' i b := by
  unfold Memory.addAtEnd at hadd
  obtain ⟨d, -, hadd⟩ := Option.bind_eq_some_iff.mp hadd
  dsimp only at hadd
  split_ifs at hadd
  · rw [← Option.some_inj.mp hadd]
    exact ⟨_, rfl, id, fun j x _ hne => hne⟩
  · obtain ⟨w, -, hadd⟩ := Option.bind_eq_some_iff.mp hadd
    obtain ⟨old, -, hadd⟩ := Option.bind_eq_some_iff.mp hadd
    obtain ⟨bytes, -, hadd⟩ := Option.bind_eq_some_iff.mp hadd
    refine ⟨_, release_buffers hadd, fun hzero => ?_, fun j x hx _ => h.ne_create junk _ hx⟩
    simp only [Buffer.noteZeroArea, hzero]

/-! ## The copy -/

variable {s₀ : Memory ι} {j t : ι} {k n : ℕ} {l : List UInt8} {d : Data}

/-- The instance `t` has the bytes `l` without a zero area, and not in the block `k`. The others are as in `s₀`. -/
def Copied (s₀ s : Memory ι) (c : Contents ι) (t : ι) (k : ℕ) (l : List UInt8) : Prop :=
  ∃ z x, s.Inv z (update c t (some l)) ∧ s.buffers = update s₀.buffers t (some x) ∧ x.zeroAreaStart = x.zeroAreaEnd ∧
    x.data ≠ k

theorem Inv.parts (h : s.Inv z c) (hb : s.buffers i = some b) (hl : c i = some l) : ∃ d, s.pool.val b.data = some d ∧
    load d.bytes b.start (b.zeroAreaStart - b.start) = some (l.take (b.zeroAreaStart - b.start)) ∧
    load d.bytes b.zeroAreaStart (b.end_ - b.zeroAreaEnd) = some (l.drop (b.zeroAreaEnd - b.start)) ∧
    l.take (b.zeroAreaStart - b.start) ++ List.replicate (b.zeroAreaEnd - b.zeroAreaStart) 0 ++
      l.drop (b.zeroAreaEnd - b.start) = l := by
  obtain ⟨d, hd, hok, hc⟩ := h.ok i b hb
  rw [hl, Option.some_inj] at hc
  subst hc
  obtain ⟨k, y, m, h₁, h₂, h₃, -, hle⟩ := hok.parts
  have hhead : (slice d.bytes b.start (b.start + k)).length = k := by
    rw [length_slice (by omega), Nat.add_sub_cancel_left]
  have hboth : (slice d.bytes b.start (b.start + k) ++ List.replicate y (0 : UInt8)).length = k + y := by
    rw [List.length_append, hhead, List.length_replicate]
  rw [Buffer.content_parts h₁ h₂ h₃, h₃, h₂, h₁, Nat.add_sub_cancel_left, Nat.add_sub_cancel_left, Nat.add_sub_cancel_left,
    Nat.add_assoc b.start k y, Nat.add_sub_cancel_left, List.take_left' hhead, ← List.append_assoc, List.drop_left' hboth]
  exact ⟨d, hd, Buffer.load_eq (by omega), Buffer.load_eq hle, rfl⟩

/-- Bytes before the others, where they can be written. -/
theorem Copied.addAtStart (h : Copied s₀ s c t k l) (ho : s₀.buffers j = some o) (hj : j ≠ t) (hk : o.data = k) (n : ℕ) :
    ∃ tmp s' x d pad, s.buffers t = some tmp ∧ s.addAtStart junk t tmp n = some s' ∧ Copied s₀ s' c t k (pad ++ l) ∧
      s'.buffers t = some x ∧ s'.pool.val x.data = some d ∧ x.begin.At x.start n ∧ x.start + n ≤ d.bytes.length ∧
      ∀ bytes, bytes.length = n → Copied s₀ (s'.setBytes x.data d (overwrite d.bytes x.start bytes)) c t k (bytes ++ l) := by
  obtain ⟨z, tmp, hinv, hbuf, hzero, hne⟩ := h
  have htmp : s.buffers t = some tmp := by rw [hbuf, update_self]
  obtain ⟨d, hd, -, hc⟩ := hinv.ok t tmp htmp
  rw [update_self, Option.some_inj] at hc
  obtain ⟨s', hs', hnew⟩ := hinv.addAtStart junk htmp hd n
  obtain ⟨x, hbuf', hzero', hblocks⟩ := hinv.addAtStart_reshaped junk hs'
  rw [hbuf, update_idem] at hbuf'
  have hne' : x.data ≠ k := by
    have hoj := hblocks j o (by rw [hbuf, update_of_ne hj, ho]) (by rw [hk]; exact hne.symm)
    rw [hk] at hoj
    exact hoj.symm
  obtain ⟨x', d', hx', hd', hat, hlen, hwrite⟩ := hnew.room
  rw [hbuf', update_self, Option.some_inj] at hx'
  subst hx'
  obtain ⟨z', -, -, pad, hpad, -⟩ := hnew
  rw [update_idem, ← hc] at hpad
  refine ⟨tmp, s', x, d', pad, htmp, hs', ⟨z', x, hpad, hbuf', hzero' hzero, hne'⟩, by rw [hbuf', update_self], hd', hat, hlen,
    fun bytes hbytes => ?_⟩
  obtain ⟨z'', hinv''⟩ := hwrite bytes hbytes
  rw [update_idem, ← hc] at hinv''
  exact ⟨z'', x, hinv'', hbuf', hzero' hzero, hne'⟩

/-- Bytes behind the others, where they can be written. Their offset is their place. -/
theorem Copied.addAtEnd (h : Copied s₀ s c t k l) (ho : s₀.buffers j = some o) (hj : j ≠ t) (hk : o.data = k) (n : ℕ) :
    ∃ tmp s' x d it pad, s.buffers t = some tmp ∧ s.addAtEnd junk t tmp n = some s' ∧ Copied s₀ s' c t k (l ++ pad) ∧
      s'.buffers t = some x ∧ x.data ≠ k ∧ s'.pool.val x.data = some d ∧ x.endIterator.prev n = some it ∧
      it.At it.current n ∧ it.current + n ≤ d.bytes.length ∧
      ∀ bytes, bytes.length = n → Copied s₀ (s'.setBytes x.data d (overwrite d.bytes it.current bytes)) c t k (l ++ bytes) := by
  obtain ⟨z, tmp, hinv, hbuf, hzero, hne⟩ := h
  have htmp : s.buffers t = some tmp := by rw [hbuf, update_self]
  obtain ⟨d, hd, -, hc⟩ := hinv.ok t tmp htmp
  rw [update_self, Option.some_inj] at hc
  obtain ⟨s', hs', hnew⟩ := hinv.addAtEnd junk htmp hd n
  obtain ⟨x, hbuf', hzero', hblocks⟩ := hinv.addAtEnd_reshaped junk hs'
  rw [hbuf, update_idem] at hbuf'
  have hne' : x.data ≠ k := by
    have hoj := hblocks j o (by rw [hbuf, update_of_ne hj, ho]) (by rw [hk]; exact hne.symm)
    rw [hk] at hoj
    exact hoj.symm
  obtain ⟨x', d', it, off, hx', hd', hprev, hat, hlen, hwrite⟩ := hnew.room
  rw [hbuf', update_self, Option.some_inj] at hx'
  subst hx'
  have hoff : off = it.current := by
    have hside := hat.side
    unfold Iterator.prev at hprev
    split_ifs at hprev
    rw [← Option.some_inj.mp hprev] at hside ⊢
    simp only [Buffer.endIterator, hzero' hzero, Nat.sub_self, Nat.sub_zero] at hside ⊢
    rcases hside with hside | hside
    · exact hside.2
    · exact hside.2
  subst hoff
  obtain ⟨z', -, -, pad, hpad, -⟩ := hnew
  rw [update_idem, ← hc] at hpad
  refine ⟨tmp, s', x, d', it, pad, htmp, hs', ⟨z', x, hpad, hbuf', hzero' hzero, hne'⟩, by rw [hbuf', update_self], hne', hd',
    hprev, hat, hlen, fun bytes hbytes => ?_⟩
  obtain ⟨z'', hinv''⟩ := hwrite bytes hbytes
  rw [update_idem, ← hc] at hinv''
  exact ⟨z'', x, hinv'', hbuf', hzero' hzero, hne'⟩

theorem writeU8s_eq {it : Iterator} {off : ℕ} (hd : s.pool.val b.data = some d) (hat : it.At off n)
    (hlen : off + n ≤ d.bytes.length) (data : UInt8) :
    s.writeU8s b it data n = some (s.setBytes b.data d (overwrite d.bytes off (List.replicate n data))) := by
  have hzero := hat.zero_le
  have hside := hat.side
  have hoff : (if it.current ≤ it.zeroStart then it.current else it.current - (it.zeroEnd - it.zeroStart)) = off := by
    split_ifs <;> omega
  rw [Memory.writeU8s, hd, Option.bind_some, Iterator.writeU8s, if_pos hat.checkNoZero, hoff, memset_eq hlen, Option.map_some]

theorem writeFrom_eq {it : Iterator} {off srcOff : ℕ} {src : List UInt8} {w : Data} (hd : s.pool.val b.data = some d)
    (ho : s.pool.val o.data = some w) (hload : load w.bytes srcOff n = some src) (hn : src.length = n) (hat : it.At off n)
    (hlen : off + n ≤ d.bytes.length) :
    s.writeFrom b it o srcOff n = some (s.setBytes b.data d (overwrite d.bytes off src)) := by
  subst hn
  rw [Memory.writeFrom, ho, Option.bind_some, hload, Option.bind_some]
  exact writeBytes_eq hd hat hlen false

/-- The instance is as before while `t` changes. -/
theorem Copied.parts (h : Copied s₀ s c t k l) (hb : s₀.buffers i = some b) (hi : i ≠ t) {lb : List UInt8}
    (hl : c i = some lb) : ∃ d, s.pool.val b.data = some d ∧
      load d.bytes b.start (b.zeroAreaStart - b.start) = some (lb.take (b.zeroAreaStart - b.start)) ∧
      load d.bytes b.zeroAreaStart (b.end_ - b.zeroAreaEnd) = some (lb.drop (b.zeroAreaEnd - b.start)) := by
  obtain ⟨z, x, hinv, hbuf, -⟩ := h
  obtain ⟨d, hd, hhead, htail, -⟩ := hinv.parts (i := i) (b := b) (l := lb) (by rw [hbuf, update_of_ne hi, hb])
    (by rw [update_of_ne hi, hl])
  exact ⟨d, hd, hhead, htail⟩

/-- `Initialize` makes an empty buffer in a block that nobody has. -/
theorem Inv.initBuffer_copied (h : s.Inv z c) (ht : s.buffers t = none) (ho : s.buffers j = some o) :
    ∃ s', s.initBuffer junk t 0 = some s' ∧ Copied s s' c t o.data [] := by
  obtain ⟨s', z', hs', hinv⟩ := h.initBuffer junk ht 0
  refine ⟨s', hs', z', ?_⟩
  unfold Memory.initBuffer at hs'
  obtain ⟨w, -, rfl⟩ := Option.map_eq_some_iff.mp hs'
  exact ⟨_, hinv, rfl, rfl, (h.ne_create junk 0 ho).symm⟩

/-- **`CreateFullCopy`** has the same bytes and no zero area. -/
theorem Inv.createFullCopy (h : s.Inv z c) (hb : s.buffers i = some b) (hl : c i = some l) (ho : s.buffers j = some o)
    (hne : b.data ≠ o.data) (ht : s.buffers t = none) :
    ∃ s', s.createFullCopy junk t b = some s' ∧ Copied s s' c t o.data l := by
  have hi : i ≠ t := by
    rintro rfl
    simp [ht] at hb
  have hj : j ≠ t := by
    rintro rfl
    simp [ht] at ho
  obtain ⟨d, hd, hhead, htail, hsum⟩ := h.parts hb hl
  have hlength : ∀ {bytes : List UInt8} {off size : ℕ} {part}, load bytes off size = some part → part.length = size := by
    intro bytes off size part hload
    unfold load at hload
    split_ifs at hload with hle
    rw [← Option.some_inj.mp hload, length_slice hle, Nat.add_sub_cancel_left]
  unfold Memory.createFullCopy
  by_cases hzeros : b.zeroAreaEnd - b.zeroAreaStart ≠ 0
  · -- the zeros, then what is before them, and what is behind them
    obtain ⟨s₁, hs₁, h₁⟩ := h.initBuffer_copied junk ht ho
    obtain ⟨tmp₁, s₂, x₂, d₂, -, htmp₁, hs₂, -, hx₂, hd₂, hat₂, hlen₂, hwrite₂⟩ :=
      h₁.addAtStart junk ho hj rfl (b.zeroAreaEnd - b.zeroAreaStart)
    have h₂ := hwrite₂ (List.replicate (b.zeroAreaEnd - b.zeroAreaStart) 0) List.length_replicate
    obtain ⟨tmp₃, s₃, x₃, d₃, _, htmp₃, hs₃, hpad₃, hx₃, hd₃, hat₃, hlen₃, hwrite₃⟩ :=
      h₂.addAtStart junk ho hj rfl (b.zeroAreaStart - b.start)
    obtain ⟨w₃, hw₃, hload₃, -⟩ := hpad₃.parts hb hi hl
    have h₃ := hwrite₃ _ (hlength hload₃)
    obtain ⟨tmp₄, s₄, x₄, d₄, it, _, htmp₄, hs₄, hpad₄, hx₄, -, hd₄, hprev, hat₄, hlen₄, hwrite₄⟩ :=
      h₃.addAtEnd junk ho hj rfl (b.end_ - b.zeroAreaEnd)
    obtain ⟨w₄, hw₄, -, hload₄⟩ := hpad₄.parts hb hi hl
    have h₄ := hwrite₄ _ (hlength hload₄)
    rw [List.append_nil, hsum] at h₄
    refine ⟨_, ?_, h₄⟩
    rw [if_pos hzeros, hs₁, Option.bind_some, htmp₁, Option.bind_some, hs₂, Option.bind_some, hx₂, Option.bind_some,
      writeU8s_eq hd₂ hat₂ hlen₂, Option.bind_some, htmp₃, Option.bind_some]
    dsimp only
    rw [hs₃, Option.bind_some, hx₃, Option.bind_some, writeFrom_eq hd₃ hw₃ hload₃ (hlength hload₃) hat₃ hlen₃,
      Option.bind_some, htmp₄, Option.bind_some, hs₄, Option.bind_some, hx₄, Option.bind_some, hprev, Option.bind_some,
      writeFrom_eq hd₄ hw₄ hload₄ (hlength hload₄) hat₄ hlen₄]
  · obtain ⟨_, -, hok, -⟩ := h.ok i b hb
    have hcopy := h.copy ht hb
    rw [hl] at hcopy
    rw [if_neg hzeros]
    refine ⟨_, rfl, z, _, hcopy, rfl, ?_, hne⟩
    have hle := hok.zero_le
    dsimp only
    omega

theorem Copied.other (h : Copied s₀ s c t k l) (ho : s₀.buffers j = some o) (hj : j ≠ t) :
    ∃ z w, s.pool.val o.data = some w ∧ o.Ok w z ∧ c j = some (o.content w.bytes) := by
  obtain ⟨z, x, hinv, hbuf, -⟩ := h
  obtain ⟨w, hw, hok, hc⟩ := hinv.ok j o (by rw [hbuf, update_of_ne hj, ho])
  rw [update_of_ne hj] at hc
  exact ⟨_, w, hw, hok, hc⟩

theorem Inv.replaceByCopy (h : s.Inv z c) (hb : s.buffers i = some b) (ht : s.buffers t = none)
    (hcopy : Copied s s' c t k l) : ∃ tmp s₁ s₂, s'.buffers t = some tmp ∧ s'.assign i b tmp = some s₁ ∧
      s₁.destroy t tmp = some s₂ ∧ Copied s s₂ c i k l := by
  have hi : i ≠ t := by
    rintro rfl
    simp [ht] at hb
  obtain ⟨z', tmp, hinv, hbuf, hzero, hne⟩ := hcopy
  have htmp : s'.buffers t = some tmp := by rw [hbuf, update_self]
  obtain ⟨s₁, hs₁, hinv₁⟩ := hinv.assign (i := i) (b := b) (by rw [hbuf, update_of_ne hi, hb]) htmp
  have hbuf₁ := assign_buffers hs₁
  obtain ⟨s₂, hs₂, hinv₂⟩ := hinv₁.destroy (i := t) (b := tmp) (by rw [hbuf₁, update_of_ne hi.symm, htmp])
  have hbuf₂ := destroy_buffers hs₂
  have htnone : update s.buffers t none = s.buffers := update_eq_self_iff.mpr ht.symm
  have hcnone : update c t none = c := update_eq_self_iff.mpr (h.eq_none ht).symm
  refine ⟨tmp, s₁, s₂, htmp, hs₁, hs₂, z', tmp, ?_, ?_, hzero, hne⟩
  · rw [update_self, update_comm hi, update_idem, hcnone] at hinv₂
    exact hinv₂
  · rw [hbuf₂, hbuf₁, hbuf, update_comm hi, update_idem, htnone]

/-- **Through the copy**, the bytes of the other buffer come behind those of the instance. -/
theorem Inv.addBufferAtEnd_copied (h : s.Inv z c) {la lb : List UInt8} (hb : s.buffers i = some b) (hla : c i = some la)
    (ho : s.buffers j = some o) (hlb : c j = some lb) (hne : b.data ≠ o.data) (ht : s.buffers t = none)
    (hd : s.pool.val b.data = some d) (hcopy : ¬ b.adjacentZeroAreas o (s.pool.count b.data) d = true) :
    ∃ s' z', s.addBufferAtEnd junk i t b o = some s' ∧ s'.Inv z' (update c i (some (la ++ lb))) := by
  have hj : j ≠ i := by
    rintro rfl
    rw [hb, Option.some_inj] at ho
    exact hne (ho ▸ rfl)
  obtain ⟨s₁, hs₁, h₁⟩ := h.createFullCopy junk hb hla ho hne ht
  obtain ⟨tmp, s₂, s₃, htmp, hs₂, hs₃, h₃⟩ := h.replaceByCopy hb ht h₁
  obtain ⟨x, s₄, y, w, it, _, hx, hs₄, hpad, hy, hyne, hw, hprev, hat, hlen, hwrite⟩ :=
    h₃.addAtEnd junk ho hj rfl o.getSize
  obtain ⟨zo, wo, hwo, hoko, hco⟩ := hpad.other ho hj
  rw [hlb, Option.some_inj] at hco
  have hsize : lb.length = o.getSize := by rw [hco, hoko.length_content]
  obtain ⟨z₅, _, hinv₅, -⟩ := hwrite lb hsize
  refine ⟨_, z₅, ?_, hinv₅⟩
  rw [Memory.addBufferAtEnd, hd, Option.bind_some, if_neg hcopy, hs₁, Option.bind_some, htmp, Option.bind_some, hs₂,
    Option.bind_some, hs₃, Option.bind_some, hx, Option.bind_some, hs₄, Option.bind_some, hy, Option.bind_some, hprev,
    Option.bind_some, Memory.writeRange, if_pos hyne, hw, Option.bind_some, hwo, Option.bind_some,
    hoko.writeRange hat.checkNoZero hlen, Option.map_some, hco]

/-! ## The shorter way -/

theorem Inv.addAtEnd_stale (h : s.Inv z c) (hb : s.buffers i = some b) (hd : s.pool.val b.data = some d)
    (hcount : s.pool.count b.data = 1) {e : ℕ} (hadd : s.addAtEnd junk i b e = some s') : ∃ x w, s'.buffers i = some x ∧ s'.pool.val x.data = some w ∧
      x.zeroAreaEnd - x.zeroAreaStart = b.zeroAreaEnd - b.zeroAreaStart ∧
      w.bytes.drop (x.getInternalEnd - e) = s.staleBytes junk b d e := by
  have hok := h.ok_other hd hb rfl
  obtain ⟨hle, hend, hsize⟩ := hok.internalEnd
  have hstart := hok.start_le.trans hle
  have hbound : b.start + b.getInternalSize ≤ d.bytes.length := by
    rw [hsize, Nat.add_sub_cancel' hstart]
    exact hok.size_le
  have hzeros : b.zeroAreaEnd - b.start - (b.zeroAreaStart - b.start) = b.zeroAreaEnd - b.zeroAreaStart :=
    Nat.sub_sub_sub_cancel_right hok.start_le
  unfold Memory.addAtEnd at hadd
  rw [hd, Option.bind_some] at hadd
  dsimp only at hadd
  unfold Memory.staleBytes
  split_ifs at hadd with hfit hown
  · rw [← Option.some_inj.mp hadd]
    rw [Bool.and_eq_true, decide_eq_true_iff] at hfit
    refine ⟨_, _, update_self _ _ _, update_self _ _ _, rfl, ?_⟩
    rw [if_pos hfit.1]
    congr 1
    change b.end_ + e - (b.zeroAreaEnd - b.zeroAreaStart) - e = b.getInternalEnd
    rw [← hend, Nat.add_right_comm, Nat.add_sub_cancel, Nat.add_sub_cancel]
  · rw [hcount] at hfit
    simp only [gt_iff_lt, lt_irrefl, decide_false, Bool.false_and, Bool.not_false, Bool.and_true, decide_eq_true_iff] at hfit
    obtain ⟨hfree, hpool, ⟨w, hw, hlen⟩, -⟩ := create_eq junk h.pool (b.getInternalSize + e)
    rw [hw, Option.bind_some] at hadd
    obtain ⟨old, hold, hcopied⟩ := Option.bind_eq_some_iff.mp hadd
    obtain ⟨bytes, hbytes, hreleased⟩ := Option.bind_eq_some_iff.mp hcopied
    have hne : b.data ≠ (create junk s.pool (b.getInternalSize + e)).2 := h.ne_create junk _ hb
    rw [Buffer.load_eq hbound, Option.some_inj] at hold
    have hlength : old.length = b.getInternalSize := by
      rw [← hold, length_slice hbound, Nat.add_sub_cancel_left]
    rw [Iterator.store_eq (by omega), Option.some_inj] at hbytes
    have hnew := (hpool.setVal (a := (create junk s.pool (b.getInternalSize + e)).2)
      (by rw [update_self]; exact one_ne_zero)) ⟨0, b.end_ - b.start + e, bytes⟩
    have hused : update (uses s.users) (create junk s.pool (b.getInternalSize + e)).2 1 b.data ≠ 0 := by
      rw [update_of_ne hne]
      exact uses_ne_zero hb
    obtain ⟨s₁, hs₁, hbuf, -, hval⟩ := release_eq
      ({ s with pool := _ }.setBuffer i (Buffer.noteZeroArea
        { b with
          data := (create junk s.pool (b.getInternalSize + e)).2
          start := 0
          zeroAreaStart := b.zeroAreaStart - b.start
          zeroAreaEnd := b.zeroAreaEnd - b.start
          end_ := b.end_ - b.start + e })) hnew hused
    obtain rfl := Option.some_inj.mp (hreleased.symm.trans hs₁)
    refine ⟨_, ⟨0, b.end_ - b.start + e, bytes⟩, (congrFun hbuf i).trans (update_self _ _ _), ?_, ?_, ?_⟩
    · change s'.pool.val (create junk s.pool (b.getInternalSize + e)).2 = _
      rw [hval _ (by rw [update_of_ne hne.symm, update_self]; exact one_ne_zero)]
      exact update_self _ _ _
    · exact hzeros
    · have hplace : b.end_ - b.start + e - (b.zeroAreaEnd - b.start - (b.zeroAreaStart - b.start)) - e = old.length := by
        rw [hzeros, hlength, hsize, ← hend, Nat.sub_add_comm hstart, Nat.add_right_comm, Nat.add_sub_cancel, Nat.add_sub_cancel]
      have hold : (overwrite w.bytes 0 old).drop old.length = w.bytes.drop old.length := by
        rw [overwrite, List.take_zero, List.nil_append, Nat.zero_add, List.drop_left]
      rw [if_neg hfit]
      dsimp only [Buffer.noteZeroArea, Buffer.getInternalEnd]
      rw [hw, Option.elim_some, ← hbytes, hplace, hold, hlength]

theorem Inv.addZeros (h : s.Inv z c) (hb : s.buffers i = some b) (hd : s.pool.val b.data = some d)
    (hcount : s.pool.count b.data = 1) (hadj : b.end_ = b.zeroAreaEnd ∨ b.zeroAreaStart = b.zeroAreaEnd) (n : ℕ) :
    ∃ z', (s.addZeros i b d n).Inv z' (update c i (some (b.content d.bytes ++ List.replicate n 0))) := by
  obtain ⟨hok, hcontent, -⟩ := (h.ok_other hd hb rfl).addZeros hadj n
  rw [← hcontent]
  exact ⟨_, h.inPlace hb hd { d with dirtyEnd := (b.addZeros n).zeroAreaEnd } rfl rfl rfl hok
    fun j x hj hx hdata _ => absurd (h.eq_of_count_le hb hcount.le hx hdata) hj⟩

theorem Inv.staleBytes_addZeros (h : s.Inv z c) (hb : s.buffers i = some b) (hd : s.pool.val b.data = some d)
    (hadj : b.end_ = b.zeroAreaEnd ∨ b.zeroAreaStart = b.zeroAreaEnd) (n e : ℕ) :
    (s.addZeros i b d n).staleBytes junk (b.addZeros n) { d with dirtyEnd := (b.addZeros n).zeroAreaEnd } e =
      s.staleBytes junk b d e := by
  obtain ⟨-, -, -, hend, hsize⟩ := (h.ok_other hd hb rfl).addZeros hadj n
  have hcreate : create junk (s.addZeros i b d n).pool (b.getInternalSize + e) =
      ((create junk s.pool (b.getInternalSize + e)).1.setVal b.data { d with dirtyEnd := (b.addZeros n).zeroAreaEnd },
        (create junk s.pool (b.getInternalSize + e)).2) := h.pool.create_setVal (uses_ne_zero hb) _ _ _
  unfold Memory.staleBytes
  rw [hend, hsize, hcreate]
  dsimp only [Pool.val_setVal]
  rw [update_of_ne (h.ne_create junk _ hb).symm]
  rfl

theorem Inv.addZeros_addAtEnd (h : s.Inv z c) {la : List UInt8} (hb : s.buffers i = some b) (hla : c i = some la)
    (hd : s.pool.val b.data = some d) (hcount : s.pool.count b.data = 1)
    (hadj : b.end_ = b.zeroAreaEnd ∨ b.zeroAreaStart = b.zeroAreaEnd) (n e : ℕ) :
    ∃ s' x w off, (s.addZeros i b d n).addAtEnd junk i (b.addZeros n) e = some s' ∧ s'.buffers i = some x ∧
      s'.pool.val x.data = some w ∧ x.start ≤ x.zeroAreaEnd ∧ x.zeroAreaEnd + e ≤ x.end_ ∧
      off + (b.zeroAreaEnd - b.zeroAreaStart + n) + e = x.end_ ∧ off + e ≤ w.bytes.length ∧
      w.bytes.drop off = s.staleBytes junk b d e ∧ (∃ z l, s'.Inv z (update c i l)) ∧
      (∀ j o, j ≠ i → s.buffers j = some o → o.data ≠ b.data → s'.buffers j = some o ∧ x.data ≠ o.data) ∧
      ∀ place bytes, off ≤ place → place + bytes.length ≤ w.bytes.length → ∃ z,
        (s'.setBytes x.data w (overwrite w.bytes place bytes)).Inv z
          (update c i (some (la ++ List.replicate n 0 ++ slice (overwrite w.bytes place bytes) off (off + e)))) := by
  obtain ⟨d', hd', -, hc⟩ := h.ok i b hb
  rw [hd, Option.some_inj] at hd'
  rw [hla, Option.some_inj, ← hd'] at hc
  obtain ⟨z₁, h₁⟩ := h.addZeros hb hd hcount hadj n
  obtain ⟨-, hcontent, hzeros, -⟩ := (h.ok_other hd hb rfl).addZeros hadj n
  have hb₁ : (s.addZeros i b d n).buffers i = some (b.addZeros n) := update_self _ _ _
  have hd₁ : (s.addZeros i b d n).pool.val b.data = some { d with dirtyEnd := (b.addZeros n).zeroAreaEnd } :=
    update_self _ _ _
  obtain ⟨s', hs', hnew⟩ := h₁.addAtEnd junk hb₁ hd₁ e
  obtain ⟨x, hbuf, -, hblocks⟩ := h₁.addAtEnd_reshaped junk hs'
  have hx : s'.buffers i = some x := by rw [hbuf, update_self]
  obtain ⟨x₁, w, hx₁, hw, hzeros', hstale⟩ := h₁.addAtEnd_stale junk hb₁ hd₁ hcount hs'
  obtain rfl := Option.some_inj.mp (hx.symm.trans hx₁)
  obtain ⟨x₂, w₂, off, hx₂, hw₂, hoff, hlen, hroom, hstart, hzero, hwrite⟩ := hnew.writeBehind
  obtain rfl := Option.some_inj.mp (hx.symm.trans hx₂)
  obtain rfl := Option.some_inj.mp (hw.symm.trans hw₂)
  obtain ⟨z', -, -, pad, hinv, -⟩ := hnew
  rw [update_idem] at hinv
  have hend : x.getInternalEnd = x.end_ - (x.zeroAreaEnd - x.zeroAreaStart) := rfl
  refine ⟨s', x, w, off, hs', hx, hw, hstart.trans hzero, hroom, by omega, hlen, ?_, ⟨z', _, hinv⟩, fun j o hj ho hne => ?_,
    fun place bytes hplace hfit => ?_⟩
  · rw [← h.staleBytes_addZeros junk hb hd hadj n e, ← hstale]
    congr 1
    omega
  · have ho₁ : (s.addZeros i b d n).buffers j = some o := (update_of_ne hj _ _).trans ho
    exact ⟨by rw [hbuf, update_of_ne hj, ho₁], (hblocks j o ho₁ hne).symm⟩
  · obtain ⟨z'', hinv'⟩ := hwrite place bytes hplace hfit
    rw [update_idem, hcontent, ← hc] at hinv'
    exact ⟨z'', hinv'⟩

theorem Values.copyData (h : s.Values c) (hl : c i = some l) : s.copyData i = some l := by
  have hsome := h.isSome i
  rw [hl, Option.isSome_some, Option.isSome_iff_exists] at hsome
  obtain ⟨b, hb⟩ := hsome
  obtain ⟨d, hd, -, -, hread, -⟩ := h.value i b l hb hl
  rw [Memory.copyData, hb, Option.bind_some, hd, Option.bind_some, hread]

/-- **The shorter way** copies the bytes behind the zeros as far behind their place as the zero areas are long. -/
theorem Inv.addBufferAtEnd_adjacent (h : s.Inv z c) {la lb : List UInt8} (hb : s.buffers i = some b) (hla : c i = some la)
    (ho : s.buffers j = some o) (hlb : c j = some lb) (hne : b.data ≠ o.data) (hd : s.pool.val b.data = some d)
    (hadj : b.adjacentZeroAreas o (s.pool.count b.data) d = true) {zeros e : ℕ}
    (hzeros : b.zeroAreaEnd - b.zeroAreaStart + (o.zeroAreaEnd - o.zeroAreaStart) = zeros) (he : o.end_ - o.zeroAreaEnd = e) :
    ((e = 0 ∨ zeros + e ≤ (s.staleBytes junk b d e).length) → ∃ s' z', s.addBufferAtEnd junk i t b o = some s' ∧
        s'.Inv z' (update c i (some (la ++ List.replicate (o.zeroAreaEnd - o.zeroAreaStart) 0 ++
          ((s.staleBytes junk b d e).take zeros ++ lb.drop (o.zeroAreaEnd - o.start)).take e)))) ∧
      (¬ (e = 0 ∨ zeros + e ≤ (s.staleBytes junk b d e).length) → s.addBufferAtEnd junk i t b o = none) := by
  have hj : j ≠ i := by
    rintro rfl
    rw [hb, Option.some_inj] at ho
    exact hne (ho ▸ rfl)
  have hcond := hadj
  simp only [Buffer.adjacentZeroAreas, Bool.and_eq_true, Bool.or_eq_true, decide_eq_true_iff] at hcond
  obtain ⟨⟨⟨⟨hcount, hends⟩, -⟩, -⟩, hozeros⟩ := hcond
  obtain ⟨_, -, hok, -⟩ := h.ok j o ho
  have hoe : o.end_ = o.zeroAreaEnd + e := he ▸ (Nat.add_sub_of_le hok.end_le).symm
  have hinternal : o.getInternalEnd = o.zeroAreaStart + e := by
    refine Nat.add_right_cancel (hok.internalEnd.2.1.trans (hoe.trans ?_))
    rw [Nat.add_right_comm, Nat.add_sub_cancel' hok.zero_le]
  obtain ⟨s', x, w, off, hs', hx, hw, hstart, hroom, hend, hlen, hstale, ⟨z', l, hinv⟩, hothers, hwrite⟩ :=
    h.addZeros_addAtEnd junk hb hla hd hcount hends (o.zeroAreaEnd - o.zeroAreaStart) e
  rw [hzeros] at hend
  clear hzeros hends
  obtain ⟨ho', hxne⟩ := hothers j o hj ho hne.symm
  have hlb' : update c i l j = some lb := by rw [update_of_ne hj, hlb]
  obtain ⟨wo, hwo, hoko, -⟩ := hinv.ok j o ho'
  obtain ⟨wo', hwo', -, htail, -⟩ := hinv.parts ho' hlb'
  obtain rfl := Option.some_inj.mp (hwo.symm.trans hwo')
  have hosize := hoko.size_le
  rw [he, Buffer.load_eq (hinternal ▸ hosize), Option.some_inj, ← hinternal] at htail
  have htaillen : (lb.drop (o.zeroAreaEnd - o.start)).length = e := by
    rw [← htail, length_slice hosize, hinternal, Nat.add_sub_cancel_left]
  have hprev : x.endIterator.prev e = some { x.endIterator with current := off + zeros } := by
    rw [← Nat.sub_eq_of_eq_add hend.symm]
    exact if_pos ((Nat.le_add_left e _).trans hend.le)
  have hosrc : o.endIterator.prev e = some { o.endIterator with current := o.zeroAreaEnd } := by
    rw [← Nat.sub_eq_of_eq_add hoe]
    exact if_pos ((Nat.le_add_left e _).trans hoe.ge)
  have hcheck : ({ x.endIterator with current := off + zeros } : Iterator).checkNoZero (off + zeros)
      (off + zeros + (o.end_ - o.zeroAreaEnd)) = true := by
    have hzeroEnd : x.zeroAreaEnd ≤ off + zeros := Nat.le_of_add_le_add_right (hroom.trans hend.ge)
    exact Iterator.checkNoZero_of_le (hstart.trans hzeroEnd) (he ▸ hend.le) hzeroEnd
  have hresult : s.addBufferAtEnd junk i t b o =
      (if o.end_ = o.zeroAreaEnd then some w.bytes else store w.bytes (off + zeros) (lb.drop (o.zeroAreaEnd - o.start))).map
        fun bytes => s'.setBytes x.data w bytes := by
    rw [Memory.addBufferAtEnd, hd, Option.bind_some, if_pos hadj]
    dsimp only
    rw [he, hs', Option.bind_some, hx, Option.bind_some, hprev, Option.bind_some, hosrc, Option.bind_some, Memory.writeRange,
      if_pos hxne, hw, Option.bind_some, hwo, Option.bind_some, hoko.writeRange_tail (Nat.lt_of_sub_pos hozeros) hcheck, htail]
  have hstalelen : (s.staleBytes junk b d e).length = w.bytes.length - off := by rw [← hstale, List.length_drop]
  have hfits : zeros + e ≤ w.bytes.length - off ↔ off + zeros + e ≤ w.bytes.length := by
    rw [Nat.le_sub_iff_add_le' ((Nat.le_add_right off e).trans hlen), Nat.add_assoc]
  rw [hresult]
  by_cases hempty : o.end_ = o.zeroAreaEnd
  · -- nothing is written
    have hzero : e = 0 := Nat.add_eq_left.mp (hoe.symm.trans hempty)
    obtain ⟨z'', hinv''⟩ := hwrite off [] le_rfl ((Nat.le_add_right off e).trans hlen)
    rw [overwrite_nil, hzero, Nat.add_zero, slice_self] at hinv''
    rw [if_pos hempty, Option.map_some, hzero, List.take_zero]
    exact ⟨fun _ => ⟨_, z'', rfl, hinv''⟩, fun hnot => absurd (.inl rfl) hnot⟩
  · have hzero : e ≠ 0 := fun hzero => hempty (by rw [hoe, hzero, Nat.add_zero])
    rw [if_neg hempty, hstalelen, hfits]
    by_cases hfit : off + zeros + e ≤ w.bytes.length
    · obtain ⟨z'', hinv''⟩ := hwrite (off + zeros) (lb.drop (o.zeroAreaEnd - o.start)) (Nat.le_add_right _ _) (htaillen ▸ hfit)
      have hshifted : slice (overwrite w.bytes (off + zeros) (lb.drop (o.zeroAreaEnd - o.start))) off
          (off + (lb.drop (o.zeroAreaEnd - o.start)).length) = _ := slice_overwrite_shifted (by omega)
      rw [htaillen, hstale] at hshifted
      rw [hshifted] at hinv''
      rw [Iterator.store_eq (htaillen ▸ hfit), Option.map_some]
      exact ⟨fun _ => ⟨_, z'', rfl, hinv''⟩, fun hnot => absurd (.inr hfit) hnot⟩
    · rw [store, if_neg (htaillen.symm ▸ hfit), Option.map_none]
      exact ⟨fun hor => absurd hor (not_or.mpr ⟨hzero, hfit⟩), fun _ => rfl⟩

theorem Values.unique {c' : Contents ι} (h : s.Values c) (h' : s.Values c') : c = c' := by
  funext i
  rcases hl : c i with _ | l
  · have hsome := h'.isSome i
    rw [h.isSome, hl, Option.isSome_none, Eq.comm, Option.isSome_eq_false_iff, Option.isNone_iff_eq_none] at hsome
    exact hsome.symm
  · have hsome := h'.isSome i
    rw [h.isSome, hl, Option.isSome_some, Eq.comm, Option.isSome_iff_exists] at hsome
    obtain ⟨l', hl'⟩ := hsome
    rw [hl', ← h'.copyData hl', h.copyData hl]

/-- **When a buffer comes behind another**: on the shorter way, the bytes behind the zeros must be none, or what was in the
block, as far as the zero areas are long, must go on with them. -/
theorem appends_iff (h : s.Inv z c) {la lb : List UInt8} (hb : s.buffers i = some b) (hla : c i = some la)
    (ho : s.buffers j = some o) (hlb : c j = some lb) (hne : b.data ≠ o.data) (ht : s.buffers t = none)
    (hd : s.pool.val b.data = some d) :
    (∃ s', s.addBufferAtEnd junk i t b o = some s' ∧ s'.Values (update c i (some (la ++ lb)))) ↔
      ¬ b.adjacentZeroAreas o (s.pool.count b.data) d = true ∨ o.end_ = o.zeroAreaEnd ∨
        b.zeroAreaEnd - b.zeroAreaStart + (o.zeroAreaEnd - o.zeroAreaStart) + (o.end_ - o.zeroAreaEnd) ≤
            (s.staleBytes junk b d (o.end_ - o.zeroAreaEnd)).length ∧
          lb.drop (o.zeroAreaEnd - o.start) <+:
            (s.staleBytes junk b d (o.end_ - o.zeroAreaEnd)).take
              (b.zeroAreaEnd - b.zeroAreaStart + (o.zeroAreaEnd - o.zeroAreaStart)) ++ lb.drop (o.zeroAreaEnd - o.start) := by
  by_cases hadj : b.adjacentZeroAreas o (s.pool.count b.data) d = true
  · obtain ⟨hright, hwrong⟩ := h.addBufferAtEnd_adjacent junk (t := t) hb hla ho hlb hne hd hadj rfl rfl
    obtain ⟨wo, hwo, hoko, hco⟩ := h.ok j o ho
    obtain ⟨-, -, -, -, hsum⟩ := h.parts ho hlb
    have hole := hoko.end_le
    have hzerole := hoko.zero_le
    have hlen : lb.length = o.getSize := by
      rw [hlb, Option.some_inj] at hco
      rw [hco, hoko.length_content]
    have hstart : o.start = o.zeroAreaStart := by
      simp only [Buffer.adjacentZeroAreas, Bool.and_eq_true, decide_eq_true_iff] at hadj
      exact hadj.1.2
    rw [show o.zeroAreaStart - o.start = 0 by omega, List.take_zero, List.nil_append] at hsum
    have htaillen : (lb.drop (o.zeroAreaEnd - o.start)).length = o.end_ - o.zeroAreaEnd := by
      rw [List.length_drop, hlen, Buffer.getSize]
      omega
    generalize hzeros : b.zeroAreaEnd - b.zeroAreaStart + (o.zeroAreaEnd - o.zeroAreaStart) = zeros at *
    generalize htail : lb.drop (o.zeroAreaEnd - o.start) = tail at *
    generalize hstale : s.staleBytes junk b d (o.end_ - o.zeroAreaEnd) = stale at *
    have hbegins : tail <+: stale.take zeros ++ tail ↔ (stale.take zeros ++ tail).take (o.end_ - o.zeroAreaEnd) = tail := by
      rw [List.prefix_iff_eq_take, htaillen, eq_comm]
    rw [hbegins]
    constructor
    · rintro ⟨s', hs', hvalues⟩
      by_cases hempty : o.end_ - o.zeroAreaEnd = 0
      · exact .inr (.inl (by omega))
      · by_cases hroom : zeros + (o.end_ - o.zeroAreaEnd) ≤ stale.length
        · obtain ⟨s'', z'', hs'', hinv⟩ := hright (.inr hroom)
          obtain rfl := Option.some_inj.mp (hs'.symm.trans hs'')
          have hsame := congrFun (hinv.values.unique hvalues) i
          rw [update_self, update_self, Option.some_inj, ← hsum, List.append_assoc, List.append_cancel_left_eq,
            List.append_cancel_left_eq] at hsame
          exact .inr (.inr ⟨hroom, hsame⟩)
        · rw [hwrong (by omega)] at hs'
          cases hs'
    · intro hcond
      have hroom : o.end_ - o.zeroAreaEnd = 0 ∨ zeros + (o.end_ - o.zeroAreaEnd) ≤ stale.length := by
        rcases hcond with hnot | hempty | hstale
        · exact absurd hadj hnot
        · exact .inl (by omega)
        · exact .inr hstale.1
      have hsame : (stale.take zeros ++ tail).take (o.end_ - o.zeroAreaEnd) = tail := by
        rcases hcond with hnot | hempty | hstale
        · exact absurd hadj hnot
        · have hnil : tail = [] := List.length_eq_zero_iff.mp (by omega)
          rw [hnil, hempty, Nat.sub_self, List.take_zero]
        · exact hstale.2
      obtain ⟨s', z', hs', hinv⟩ := hright hroom
      rw [hsame, List.append_assoc, hsum] at hinv
      exact ⟨s', hs', hinv.values⟩
  · obtain ⟨s', z', hs', hinv⟩ := h.addBufferAtEnd_copied junk hb hla ho hlb hne ht hd hadj
    exact ⟨fun _ => .inl hadj, fun _ => ⟨s', hs', hinv.values⟩⟩

/-- A buffer with bytes behind its zeros, and then one with bytes on both sides. -/
theorem appends_iff_between : ∃ (ops : List (BufferOp (Option Bool))) (s : Memory (Option Bool)) (b o : Buffer),
    run (fun _ _ => 7) ops = some s ∧ s.buffers (some false) = some b ∧ s.buffers (some true) = some o ∧
      ∃ s', s.addBufferAtEnd (fun _ _ => 7) (some false) none b o = some s' ∧
        s'.Values (update (Contents.run ops) (some false) (some ([0, 0, 1] ++ [3, 0, 4]))) := by
  have hrun := run_inv (fun _ _ => 7) ([.construct (some false) 2, .addAtEnd (some false) [1] false, .construct (some true) 1,
    .addAtEnd (some true) [4] true, .addAtStart (some true) [3] false] : List (BufferOp (Option Bool))) (fun op hop => ?_)
    fun before hbefore => Contents.small_of_all ?_
  · obtain ⟨s, z, hs, hinv⟩ := hrun
    obtain rfl := Option.some_inj.mp (hs.symm.trans rfl)
    refine ⟨_, _, _, _, hs, rfl, rfl, ?_⟩
    exact (appends_iff (fun _ _ => 7) (i := some false) (j := some true) (t := none) hinv rfl (by decide) rfl (by decide)
      (by decide) rfl rfl).mpr (.inl (by decide))
  · simp only [List.mem_cons, List.not_mem_nil, or_false] at hop
    rcases hop with rfl | rfl | rfl | rfl | rfl <;> exact trivial
  · rw [← List.mem_inits] at hbefore
    revert before
    decide

/-- The block of a buffer without bytes behind its zeros has the bytes of another buffer, which is gone. -/
theorem not_appends : ∃ (ops : List (BufferOp (Option Bool))) (s : Memory (Option Bool)) (b o : Buffer),
    run (fun _ _ => 7) ops = some s ∧ s.buffers (some false) = some b ∧ s.buffers (some true) = some o ∧ b.data ≠ o.data ∧
      s.buffers none = none ∧ Contents.run ops (some false) = some [0, 0] ∧ Contents.run ops (some true) = some [0, 0, 5] ∧
      ¬ ∃ s', s.addBufferAtEnd (fun _ _ => 7) (some false) none b o = some s' ∧
        s'.Values (update (Contents.run ops) (some false) (some ([0, 0] ++ [0, 0, 5]))) := by
  refine ⟨[.construct none 0, .addAtEnd none [9, 9, 9, 9, 9] false, .destroy none, .construct (some false) 2,
    .construct (some true) 2, .addAtEnd (some true) [5] false], _, _, _, rfl, rfl, rfl, by decide, rfl, by decide, by decide, ?_⟩
  rintro ⟨s', hs', hvalues⟩
  have hread := hvalues.copyData (update_self _ _ _)
  have hbind := (Option.bind_eq_some_iff (f := fun s : Memory (Option Bool) => s.copyData (some false))).mpr ⟨s', hs', hread⟩
  revert hbind
  decide

end Memory

end Ns3Ndn.Network
