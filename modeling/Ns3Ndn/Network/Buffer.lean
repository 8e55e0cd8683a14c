import Ns3Ndn.Lib.Pool
import Ns3Ndn.Lib.Slice

/-!
# Packet buffers

`network/model/buffer.cc`: the bytes of a packet are in a block that several buffers share, with an area of zeros that
takes no memory. A buffer grows in place when nobody else uses its block, or when it is the one that reaches to the end of
the dirty area, where no other buffer has bytes. Otherwise it takes a new block.

The offsets of a buffer count the zeros. Two buffers with one block can have zero areas of different sizes, and `m_end` of
both is compared with the same `m_dirtyEnd`. Sizes stay below `2 ^ 31`, so that no sum of offsets wraps around. The bytes of
a new block are `junk`, and those of a recycled block are what they were.
-/

namespace Ns3Ndn.Network

open Function PoolLib SliceLib

/-- `Buffer::Data`, without its `m_count`. `m_size` is the length of `bytes`. -/
structure Data where
  dirtyStart : ℕ := 0
  dirtyEnd : ℕ := 0
  bytes : List UInt8

def Data.size (d : Data) : ℕ := d.bytes.length

structure Buffer where
  data : ℕ
  maxZeroAreaStart : ℕ
  zeroAreaStart : ℕ
  zeroAreaEnd : ℕ
  start : ℕ
  end_ : ℕ

namespace Buffer

variable (b : Buffer)

def getSize : ℕ := b.end_ - b.start

def getInternalSize : ℕ := b.zeroAreaStart - b.start + b.end_ - b.zeroAreaEnd

def getInternalEnd : ℕ := b.end_ - (b.zeroAreaEnd - b.zeroAreaStart)

def checkInternalState (count : ℕ) (d : Data) : Bool :=
  let offsetsOk := b.start ≤ b.zeroAreaStart && b.zeroAreaStart ≤ b.zeroAreaEnd && b.zeroAreaEnd ≤ b.end_
  let dirtyOk := b.start ≥ d.dirtyStart && b.end_ ≤ d.dirtyEnd
  let internalSizeOk := b.end_ - (b.zeroAreaEnd - b.zeroAreaStart) ≤ d.size && b.start ≤ d.size && b.zeroAreaStart ≤ d.size
  count > 0 && offsetsOk && dirtyOk && internalSizeOk

def noteZeroArea : Buffer := { b with maxZeroAreaStart := max b.maxZeroAreaStart b.zeroAreaStart }

def removeAtStart (start : ℕ) : Buffer :=
  let newStart := b.start + start
  let zeroSize := b.zeroAreaEnd - b.zeroAreaStart
  noteZeroArea
    (if newStart ≤ b.zeroAreaStart then { b with start := newStart }
    else if newStart ≤ b.zeroAreaEnd then
      let delta := newStart - b.zeroAreaStart
      { b with start := b.zeroAreaStart, zeroAreaEnd := b.zeroAreaEnd - delta, end_ := b.end_ - delta }
    else if newStart ≤ b.end_ then
      { b with
        start := newStart - zeroSize
        end_ := b.end_ - zeroSize
        zeroAreaStart := newStart - zeroSize
        zeroAreaEnd := newStart - zeroSize }
    else
      { b with
        end_ := b.end_ - zeroSize
        start := b.end_ - zeroSize
        zeroAreaEnd := b.end_ - zeroSize
        zeroAreaStart := b.end_ - zeroSize })

def removeAtEnd (e : ℕ) : Buffer :=
  let newEnd := b.end_ - min e (b.end_ - b.start)
  noteZeroArea
    (if newEnd > b.zeroAreaEnd then { b with end_ := newEnd }
    else if newEnd > b.zeroAreaStart then { b with end_ := newEnd, zeroAreaEnd := newEnd }
    else if newEnd > b.start then { b with end_ := newEnd, zeroAreaEnd := newEnd, zeroAreaStart := newEnd }
    else { b with end_ := b.start, zeroAreaEnd := b.start, zeroAreaStart := b.start })

/-- The difference of two `uint32_t`. -/
def wrapSub (x y : ℕ) : ℕ := (x + 2 ^ 32 - y % 2 ^ 32) % 2 ^ 32

def createFragment (start length : ℕ) : Buffer :=
  (b.removeAtStart start).removeAtEnd (wrapSub b.getSize (start + length))

end Buffer

/-! ## Iterators -/

structure Iterator where
  zeroStart : ℕ
  zeroEnd : ℕ
  dataStart : ℕ
  dataEnd : ℕ
  current : ℕ

namespace Buffer

def begin (b : Buffer) : Iterator := ⟨b.zeroAreaStart, b.zeroAreaEnd, b.start, b.end_, b.start⟩

def endIterator (b : Buffer) : Iterator := ⟨b.zeroAreaStart, b.zeroAreaEnd, b.start, b.end_, b.end_⟩

end Buffer

/-- A write into a block, which must not leave it. -/
def store (bytes : List UInt8) (off : ℕ) (src : List UInt8) : Option (List UInt8) :=
  if off + src.length ≤ bytes.length then some (overwrite bytes off src) else none

/-- A read from a block, which must not leave it. -/
def load (bytes : List UInt8) (off size : ℕ) : Option (List UInt8) :=
  if off + size ≤ bytes.length then some (slice bytes off (off + size)) else none

namespace Iterator

variable (it : Iterator)

def prev (delta : ℕ) : Option Iterator :=
  if it.current ≥ delta then some { it with current := it.current - delta } else none

def check (i : ℕ) : Bool := i ≥ it.dataStart && ! (i ≥ it.zeroStart && i < it.zeroEnd) && i ≤ it.dataEnd

def checkNoZero (start e : ℕ) : Bool :=
  ! (start < it.dataStart || e > it.dataEnd ||
    (e > it.zeroStart && start < it.zeroEnd && it.zeroEnd != it.zeroStart && start != e))

def writeU8 (bytes : List UInt8) (data : UInt8) : Option (List UInt8 × Iterator) :=
  if it.check it.current then
    let off := if it.current < it.zeroStart then it.current else it.current - (it.zeroEnd - it.zeroStart)
    (store bytes off [data]).map fun bytes => (bytes, { it with current := it.current + 1 })
  else none

/-- `WriteU8` for each byte. -/
def writeEach : Iterator → List UInt8 → List UInt8 → Option (List UInt8 × Iterator)
  | it, bytes, [] => some (bytes, it)
  | it, bytes, data :: rest => (it.writeU8 bytes data).bind fun r => writeEach r.2 r.1 rest

/-- `Write`. The check is made with the size, where it takes the end. -/
def write (bytes buffer : List UInt8) : Option (List UInt8 × Iterator) :=
  if it.checkNoZero it.current buffer.length then
    let off := if it.current ≤ it.zeroStart then it.current else it.current - (it.zeroEnd - it.zeroStart)
    (store bytes off buffer).map fun bytes => (bytes, { it with current := it.current + buffer.length })
  else none

def peekU8 (bytes : List UInt8) : Option UInt8 :=
  if it.current ≥ it.dataStart && it.current < it.dataEnd then
    if it.current < it.zeroStart then bytes[it.current]?
    else if it.current < it.zeroEnd then some 0
    else bytes[it.current - (it.zeroEnd - it.zeroStart)]?
  else none

/-- `ReadU8`, `size` times. -/
def read (bytes : List UInt8) : Iterator → ℕ → Option (List UInt8)
  | _, 0 => some []
  | it, size + 1 =>
    (it.peekU8 bytes).bind fun data => (read bytes { it with current := it.current + 1 } size).map (data :: ·)

end Iterator

def zeroesSize : ℕ := 1000

def zeroLoop : ℕ → ℕ → List UInt8
  | 0, _ => []
  | fuel + 1, left =>
    if left > 0 then List.replicate (min left zeroesSize) 0 ++ zeroLoop fuel (left - min left zeroesSize) else []

/-- `CopyData`. -/
def Buffer.copyData (b : Buffer) (bytes : List UInt8) (size : ℕ) : Option (List UInt8) :=
  if size > 0 then
    let first := min (b.zeroAreaStart - b.start) size
    (load bytes b.start first).bind fun head =>
      let size := size - first
      if size > 0 then
        let zeros := min (b.zeroAreaEnd - b.zeroAreaStart) size
        let middle := zeroLoop zeros zeros
        let size := size - zeros
        if size > 0 then
          (load bytes b.zeroAreaStart (min (b.end_ - b.zeroAreaEnd) size)).map fun tail => head ++ middle ++ tail
        else some (head ++ middle)
      else some head
  else some []

/-! ## Memory -/

/-- All buffers, with the blocks and the free list. -/
structure Memory (ι : Type) where
  pool : Pool Data := {}
  maxSize : ℕ := 0
  recommendedStart : ℕ := 0
  buffers : ι → Option Buffer := fun _ => none

/-- A call, on an instance. A write is by `WriteU8` for each byte or by `Write`. -/
inductive BufferOp (ι : Type) where
  | construct (i : ι) (zeroSize : ℕ)
  | copy (i o : ι)
  | assign (i o : ι)
  | destroy (i : ι)
  | addAtStart (i : ι) (bytes : List UInt8) (each : Bool)
  | addAtEnd (i : ι) (bytes : List UInt8) (each : Bool)
  | removeAtStart (i : ι) (start : ℕ)
  | removeAtEnd (i : ι) (e : ℕ)
  | createFragment (i o : ι) (start length : ℕ)

namespace Memory

variable {ι : Type} [DecidableEq ι] (junk : ℕ → ℕ → UInt8)

/-- `Create`: a block from the free list that is large enough, or a new one. -/
def create (p : Pool Data) (dataSize : ℕ) : Pool Data × ℕ :=
  p.create (fun d => d.size ≥ dataSize) fun a => { bytes := (List.range (max dataSize 1)).map (junk a) }

/-- One user of a block less, and `Recycle` after the last. -/
def release (s : Memory ι) (a : ℕ) : Option (Memory ι) :=
  (s.pool.val a).map fun d =>
    if s.pool.count a - 1 = 0 then
      let maxSize := max s.maxSize d.size
      { s with
        maxSize := maxSize
        pool := s.pool.release a (! (d.size < maxSize || s.pool.free.length > 1000)) }
    else { s with pool := s.pool.release a false }

def setBuffer (s : Memory ι) (i : ι) (b : Buffer) : Memory ι := { s with buffers := update s.buffers i (some b) }

/-- `Initialize`. -/
def initBuffer (s : Memory ι) (i : ι) (zeroSize : ℕ) : Option (Memory ι) :=
  let created := create junk s.pool 0
  (created.1.val created.2).map fun d =>
    let start := min d.size s.recommendedStart
    ({ s with pool := created.1.setVal created.2 { d with dirtyStart := start, dirtyEnd := start + zeroSize } }).setBuffer i
      { data := created.2
        maxZeroAreaStart := start
        zeroAreaStart := start
        zeroAreaEnd := start + zeroSize
        start := start
        end_ := start + zeroSize }

def destroy (s : Memory ι) (i : ι) (b : Buffer) : Option (Memory ι) :=
  ({ s with
      recommendedStart := max s.recommendedStart b.maxZeroAreaStart
      buffers := update s.buffers i none }).release b.data

def copy (s : Memory ι) (i : ι) (o : Buffer) : Memory ι :=
  { s with pool := s.pool.share o.data }.setBuffer i { o with maxZeroAreaStart := o.zeroAreaStart }

/-- `operator=`. -/
def assign (s : Memory ι) (i : ι) (b o : Buffer) : Option (Memory ι) :=
  (if b.data ≠ o.data then (s.release b.data).map fun s => { s with pool := s.pool.share o.data } else some s).map fun s =>
    { s with recommendedStart := max s.recommendedStart b.maxZeroAreaStart }.setBuffer i o

/-- `AddAtStart`. -/
def addAtStart (s : Memory ι) (i : ι) (b : Buffer) (start : ℕ) : Option (Memory ι) :=
  (s.pool.val b.data).bind fun d =>
    let isDirty := s.pool.count b.data > 1 && b.start > d.dirtyStart
    if b.start ≥ start && ! isDirty then
      if s.pool.count b.data = 1 ∨ b.start = d.dirtyStart then
        some ({ s with pool := s.pool.setVal b.data { d with dirtyStart := b.start - start } }.setBuffer i
          { b with start := b.start - start }.noteZeroArea)
      else none
    else
      let created := create junk s.pool (b.getInternalSize + start)
      (created.1.val created.2).bind fun newData => (load d.bytes b.start b.getInternalSize).bind fun old =>
        (store newData.bytes start old).bind fun bytes =>
          -- the offsets move by `start - m_start`, and `m_start` then goes to 0
          let moved := { b with
                         data := created.2
                         start := 0
                         zeroAreaStart := b.zeroAreaStart + start - b.start
                         zeroAreaEnd := b.zeroAreaEnd + start - b.start
                         end_ := b.end_ + start - b.start }
          ({ s with pool := created.1.setVal created.2 ⟨0, moved.end_, bytes⟩ }.setBuffer i moved.noteZeroArea).release b.data

/-- `AddAtEnd`. -/
def addAtEnd (s : Memory ι) (i : ι) (b : Buffer) (e : ℕ) : Option (Memory ι) :=
  (s.pool.val b.data).bind fun d =>
    let isDirty := s.pool.count b.data > 1 && b.end_ < d.dirtyEnd
    if b.getInternalEnd + e ≤ d.size && ! isDirty then
      if s.pool.count b.data = 1 ∨ b.end_ = d.dirtyEnd then
        some ({ s with pool := s.pool.setVal b.data { d with dirtyEnd := b.end_ + e } }.setBuffer i
          { b with end_ := b.end_ + e }.noteZeroArea)
      else none
    else
      let created := create junk s.pool (b.getInternalSize + e)
      (created.1.val created.2).bind fun newData => (load d.bytes b.start b.getInternalSize).bind fun old =>
        (store newData.bytes 0 old).bind fun bytes =>
          let moved := { b with
                         data := created.2
                         start := 0
                         zeroAreaStart := b.zeroAreaStart - b.start
                         zeroAreaEnd := b.zeroAreaEnd - b.start
                         end_ := b.end_ - b.start + e }
          ({ s with pool := created.1.setVal created.2 ⟨0, moved.end_, bytes⟩ }.setBuffer i moved.noteZeroArea).release b.data

def writeBytes (s : Memory ι) (b : Buffer) (it : Iterator) (bytes : List UInt8) (each : Bool) : Option (Memory ι) :=
  (s.pool.val b.data).bind fun d =>
    (if each then it.writeEach d.bytes bytes else it.write d.bytes bytes).map fun r =>
      { s with pool := s.pool.setVal b.data { d with bytes := r.1 } }

/-- One call. A call on an instance that is not there, or a constructor on one that is, does nothing. -/
def step (s : Memory ι) : BufferOp ι → Option (Memory ι)
  | .construct i zeroSize => if (s.buffers i).isSome then some s else s.initBuffer junk i zeroSize
  | .copy i o => if (s.buffers i).isSome then some s else some ((s.buffers o).elim s (s.copy i))
  | .assign i o => (s.buffers i).elim (some s) fun b => (s.buffers o).elim (some s) (s.assign i b)
  | .destroy i => (s.buffers i).elim (some s) (s.destroy i)
  | .addAtStart i bytes each =>
    (s.buffers i).elim (some s) fun b => (s.addAtStart junk i b bytes.length).bind fun s =>
      (s.buffers i).bind fun b => s.writeBytes b b.begin bytes each
  | .addAtEnd i bytes each =>
    (s.buffers i).elim (some s) fun b => (s.addAtEnd junk i b bytes.length).bind fun s =>
      (s.buffers i).bind fun b => (b.endIterator.prev bytes.length).bind fun it => s.writeBytes b it bytes each
  | .removeAtStart i start => some ((s.buffers i).elim s fun b => s.setBuffer i (b.removeAtStart start))
  | .removeAtEnd i e => some ((s.buffers i).elim s fun b => s.setBuffer i (b.removeAtEnd e))
  | .createFragment i o start length =>
    if (s.buffers i).isSome then some s
    else some ((s.buffers o).elim s fun b => (s.copy i b).setBuffer i
      (({ b with maxZeroAreaStart := b.zeroAreaStart } : Buffer).createFragment start length))

def run (ops : List (BufferOp ι)) : Option (Memory ι) := ops.foldlM (step junk) {}

end Memory

/-! ## Contents -/

def Buffer.content (b : Buffer) (bytes : List UInt8) : List UInt8 :=
  slice bytes b.start b.zeroAreaStart ++ List.replicate (b.zeroAreaEnd - b.zeroAreaStart) 0 ++
    slice bytes b.zeroAreaStart b.getInternalEnd

/-- The offsets of a buffer are in order and in its block. No buffer of the block has more than `z` zeros, or bytes behind
the dirty area without `z` zeros. -/
structure Buffer.Ok (b : Buffer) (d : Data) (z : ℕ) : Prop where
  start_le : b.start ≤ b.zeroAreaStart
  zero_le : b.zeroAreaStart ≤ b.zeroAreaEnd
  end_le : b.zeroAreaEnd ≤ b.end_
  dirtyStart_le : d.dirtyStart ≤ b.start
  zeros_le : b.zeroAreaEnd - b.zeroAreaStart ≤ z
  dirtyEnd_le : b.getInternalEnd + z ≤ d.dirtyEnd
  size_le : b.getInternalEnd ≤ d.bytes.length

namespace Buffer

variable {b : Buffer} {d : Data} {z n : ℕ} {bytes src : List UInt8}

theorem Ok.internalEnd (h : b.Ok d z) : b.zeroAreaStart ≤ b.getInternalEnd ∧
    b.getInternalEnd + (b.zeroAreaEnd - b.zeroAreaStart) = b.end_ ∧ b.getInternalSize = b.getInternalEnd - b.start := by
  have h₁ := h.start_le
  have h₂ := h.zero_le
  have h₃ := h.end_le
  rw [getInternalEnd, getInternalSize]
  omega

theorem Ok.length_content (h : b.Ok d z) : (b.content d.bytes).length = b.getSize := by
  have hend := h.internalEnd
  have h₁ := h.start_le
  have h₂ := h.zero_le
  have h₃ := h.end_le
  have h₄ := h.size_le
  rw [content, List.length_append, List.length_append, length_slice (by omega), length_slice h₄, List.length_replicate,
    getSize]
  omega

/-- **The state is as the code checks it**, also with other buffers at the block. -/
theorem Ok.checkInternalState (h : b.Ok d z) {count : ℕ} (hcount : 0 < count) :
    b.checkInternalState count d = true := by
  have hend := h.internalEnd
  have h₁ := h.start_le
  have h₂ := h.zero_le
  have h₃ := h.end_le
  have h₄ := h.size_le
  have h₅ := h.dirtyStart_le
  have h₆ := h.dirtyEnd_le
  have h₇ := h.zeros_le
  rw [getInternalEnd] at hend h₄ h₆
  have hsize : d.size = d.bytes.length := rfl
  simp only [Buffer.checkInternalState, Bool.and_eq_true, decide_eq_true_iff]
  refine ⟨⟨⟨hcount, ⟨h₁, h₂⟩, h₃⟩, h₅, ?_⟩, ⟨h₄, ?_⟩, ?_⟩ <;> omega

theorem content_overwrite_of_disjoint {off : ℕ} (hb : b.zeroAreaStart ≤ b.getInternalEnd) (hs : b.start ≤ b.zeroAreaStart)
    (h : off + src.length ≤ bytes.length) (hdisj : b.getInternalEnd ≤ off ∨ off + src.length ≤ b.start) :
    b.content (overwrite bytes off src) = b.content bytes := by
  rw [content, content, slice_overwrite_of_disjoint h (by omega), slice_overwrite_of_disjoint h (by omega)]

/-! ### Removal -/

@[simp] theorem data_removeAtStart (b : Buffer) (n : ℕ) : (b.removeAtStart n).data = b.data := by
  rw [Buffer.removeAtStart]
  split_ifs <;> rfl

@[simp] theorem data_removeAtEnd (b : Buffer) (n : ℕ) : (b.removeAtEnd n).data = b.data := by
  rw [Buffer.removeAtEnd]
  split_ifs <;> rfl

/-- The sizes of the three parts of a content. -/
theorem Ok.parts (h : b.Ok d z) : ∃ k y m, b.zeroAreaStart = b.start + k ∧ b.zeroAreaEnd = b.start + k + y ∧
    b.end_ = b.start + k + y + m ∧ b.getInternalEnd = b.start + k + m ∧ b.start + k + m ≤ d.bytes.length := by
  have hend := h.internalEnd
  have hle := h.size_le
  obtain ⟨k, hk⟩ := Nat.exists_eq_add_of_le h.start_le
  obtain ⟨y, hy⟩ := Nat.exists_eq_add_of_le h.zero_le
  obtain ⟨m, hm⟩ := Nat.exists_eq_add_of_le h.end_le
  rw [hy, Nat.add_sub_cancel_left] at hend
  exact ⟨k, y, m, hk, by rw [hy, hk], by rw [hm, hy, hk], by omega, by omega⟩

theorem content_parts {k y m : ℕ} (h₁ : b.zeroAreaStart = b.start + k) (h₂ : b.zeroAreaEnd = b.start + k + y)
    (h₃ : b.end_ = b.start + k + y + m) : b.content bytes =
      slice bytes b.start (b.start + k) ++ (List.replicate y 0 ++ slice bytes (b.start + k) (b.start + k + m)) := by
  have hend : b.getInternalEnd = b.start + k + m := by
    rw [getInternalEnd, h₁, h₂, h₃, Nat.add_sub_cancel_left]
    omega
  rw [content, hend, h₁, h₂, Nat.add_sub_cancel_left, List.append_assoc]

/-- A buffer of parts of the three parts. -/
theorem Ok.kept (h : b.Ok d z) {b' : Buffer} {k y m : ℕ} (h₁ : b'.zeroAreaStart = b'.start + k)
    (h₂ : b'.zeroAreaEnd = b'.start + k + y) (h₃ : b'.end_ = b'.start + k + y + m) (hs : b.start ≤ b'.start)
    (hy : b.zeroAreaStart + y ≤ b.zeroAreaEnd) (hm : b'.start + k + m ≤ b.getInternalEnd) :
    b'.Ok d z ∧ b'.content d.bytes =
      slice d.bytes b'.start (b'.start + k) ++ (List.replicate y 0 ++ slice d.bytes (b'.start + k) (b'.start + k + m)) := by
  have hzeros : b'.zeroAreaEnd - b'.zeroAreaStart = y := by rw [h₁, h₂, Nat.add_sub_cancel_left]
  have hend : b'.getInternalEnd = b'.start + k + m := by
    rw [getInternalEnd, hzeros, h₃]
    omega
  refine ⟨⟨by omega, by omega, by omega, h.dirtyStart_le.trans hs, ?_, ?_, ?_⟩, content_parts h₁ h₂ h₃⟩
  · rw [hzeros]
    exact (Nat.le_sub_of_add_le' hy).trans h.zeros_le
  · rw [hend]
    exact (Nat.add_le_add_right hm z).trans h.dirtyEnd_le
  · rw [hend]
    exact hm.trans h.size_le

theorem Ok.removeAtStart (h : b.Ok d z) (n : ℕ) :
    (b.removeAtStart n).Ok d z ∧ (b.removeAtStart n).content d.bytes = (b.content d.bytes).drop n := by
  obtain ⟨k, y, m, h₁, h₂, h₃, hend, hle⟩ := h.parts
  have hfirst : (slice d.bytes b.start (b.start + k)).length = k := by
    rw [length_slice (by omega), Nat.add_sub_cancel_left]
  have hlast : (slice d.bytes (b.start + k) (b.start + k + m)).length = m := by
    rw [length_slice hle, Nat.add_sub_cancel_left]
  rw [content_parts h₁ h₂ h₃, Buffer.removeAtStart, h₁, h₂, h₃, Nat.add_sub_cancel_left]
  split_ifs with hn hn' hn''
  · -- the new first byte is one of the first part
    obtain ⟨j, rfl⟩ := Nat.exists_eq_add_of_le (Nat.le_of_add_le_add_left hn)
    rw [← Nat.add_assoc] at *
    refine And.imp_right (fun hc => hc.trans ?_) (h.kept (k := j) (y := y) (m := m) rfl rfl rfl
      (Nat.le_add_right _ _) (by omega) hend.ge)
    dsimp only [noteZeroArea]
    rw [List.drop_append_of_le_length (by omega), drop_slice]
  · obtain ⟨j, rfl⟩ : ∃ j, n = k + j := Nat.exists_eq_add_of_le (by omega)
    obtain ⟨y', rfl⟩ : ∃ y', y = j + y' := Nat.exists_eq_add_of_le (by omega)
    have hzero : b.start + k + (j + y') - j = b.start + k + 0 + y' := Nat.sub_eq_of_eq_add (by omega)
    have hlong : b.start + k + (j + y') + m - j = b.start + k + 0 + y' + m := Nat.sub_eq_of_eq_add (by omega)
    dsimp only
    rw [← Nat.add_assoc b.start k j, Nat.add_sub_cancel_left, hzero, hlong]
    clear hzero hlong
    refine And.imp_right (fun hc => hc.trans ?_) (h.kept (k := 0) (y := y') (m := m) rfl rfl rfl
      (Nat.le_add_right _ _) (by omega) hend.ge)
    dsimp only [noteZeroArea]
    rw [← List.drop_drop, List.drop_left' hfirst, List.drop_append_of_le_length (by rw [List.length_replicate]; omega),
      List.drop_replicate, Nat.add_sub_cancel_left, Nat.add_zero, slice_self, List.nil_append]
  · obtain ⟨j, rfl⟩ : ∃ j, n = k + y + j := Nat.exists_eq_add_of_le (by omega)
    obtain ⟨m', rfl⟩ : ∃ m', m = j + m' := Nat.exists_eq_add_of_le (by omega)
    have hstart : b.start + (k + y + j) - y = b.start + k + j := Nat.sub_eq_of_eq_add (by omega)
    have hlong : b.start + k + y + (j + m') - y = b.start + k + j + 0 + 0 + m' := Nat.sub_eq_of_eq_add (by omega)
    rw [hstart, hlong, Nat.add_assoc k y j]
    clear hstart hlong
    refine And.imp_right (fun hc => hc.trans ?_) (h.kept (k := 0) (y := 0) (m := m') rfl rfl rfl
      ((Nat.le_add_right _ k).trans (Nat.le_add_right _ j)) (by omega) (by rw [hend, ← Nat.add_assoc]; exact le_rfl))
    dsimp only [noteZeroArea]
    rw [← List.drop_drop, List.drop_left' hfirst, ← List.drop_drop, List.drop_left' List.length_replicate, drop_slice,
      Nat.add_zero, slice_self, ← Nat.add_assoc]
    rfl
  · rw [Nat.add_right_comm, Nat.add_sub_cancel]
    refine And.imp_right (fun hc => hc.trans ?_) (h.kept (k := 0) (y := 0) (m := 0) rfl rfl rfl
      ((Nat.le_add_right _ k).trans (Nat.le_add_right _ m)) (by omega) hend.ge)
    dsimp only [noteZeroArea]
    rw [List.drop_eq_nil_of_le, Nat.add_zero, slice_self]
    · rfl
    · rw [List.length_append, List.length_append, hfirst, hlast, List.length_replicate]
      omega

theorem Ok.removeAtEnd (h : b.Ok d z) (n : ℕ) :
    (b.removeAtEnd n).Ok d z ∧ (b.removeAtEnd n).content d.bytes = (b.content d.bytes).take (b.getSize - n) := by
  obtain ⟨k, y, m, h₁, h₂, h₃, hend, hle⟩ := h.parts
  obtain ⟨t, ht, hsize, hnew⟩ : ∃ t ≤ k + y + m, b.getSize - n = t ∧ b.end_ - min n (b.end_ - b.start) = b.start + t := by
    have hall : b.end_ = b.start + (k + y + m) := by rw [h₃, Nat.add_assoc, Nat.add_assoc, ← Nat.add_assoc k]
    rw [getSize, hall, Nat.add_sub_cancel_left]
    exact ⟨_, Nat.sub_le _ n, rfl, by rw [Nat.add_sub_assoc (min_le_right _ _), min_comm, tsub_min]⟩
  have hfirst : (slice d.bytes b.start (b.start + k)).length = k := by
    rw [length_slice (by omega), Nat.add_sub_cancel_left]
  have hzero : b.zeroAreaStart + y = b.zeroAreaEnd := by rw [h₁, h₂]
  have hstart := h.start_le.trans h.internalEnd.1
  rw [hsize, content_parts h₁ h₂ h₃, Buffer.removeAtEnd, hnew, h₁, h₂]
  clear hnew hsize h₁ h₂ h₃
  split_ifs with hn hn' hn''
  · -- only bytes of the last part are removed
    obtain ⟨m', rfl⟩ : ∃ m', t = k + y + m' := Nat.exists_eq_add_of_le (by omega)
    rw [← Nat.add_assoc, ← Nat.add_assoc]
    refine And.imp_right (fun hc => hc.trans ?_) (h.kept (k := k) (y := y) (m := m') rfl rfl rfl le_rfl
      hzero.le (by dsimp only [noteZeroArea]; omega))
    dsimp only [noteZeroArea]
    rw [List.take_append, List.take_of_length_le (by omega), hfirst, Nat.add_assoc k, Nat.add_sub_cancel_left, List.take_append,
      List.take_of_length_le (by rw [List.length_replicate]; omega), List.length_replicate, Nat.add_sub_cancel_left, take_slice,
      min_eq_right (by omega)]
  · obtain ⟨y', rfl⟩ : ∃ y', t = k + y' := Nat.exists_eq_add_of_le (by omega)
    rw [← Nat.add_assoc]
    refine And.imp_right (fun hc => hc.trans ?_) (h.kept (k := k) (y := y') (m := 0) rfl rfl rfl le_rfl
      (by omega) (hend ▸ Nat.le_add_right _ m))
    dsimp only [noteZeroArea]
    rw [List.take_append, List.take_of_length_le (by omega), hfirst, Nat.add_sub_cancel_left,
      List.take_append_of_le_length (by rw [List.length_replicate]; omega), List.take_replicate, min_eq_left (by omega),
      Nat.add_zero, slice_self, List.append_nil]
  · refine And.imp_right (fun hc => hc.trans ?_) (h.kept (k := t) (y := 0) (m := 0) rfl rfl rfl le_rfl
      h.zero_le (by dsimp only [noteZeroArea]; omega))
    dsimp only [noteZeroArea]
    rw [List.take_append_of_le_length (by omega), take_slice, min_eq_right (by omega), Nat.add_zero, slice_self,
      List.replicate_zero, List.append_nil, List.append_nil]
  · obtain rfl : t = 0 := by omega
    refine And.imp_right (fun hc => hc.trans ?_) (h.kept (k := 0) (y := 0) (m := 0) rfl rfl rfl le_rfl
      h.zero_le hstart)
    dsimp only [noteZeroArea]
    rw [Nat.add_zero, slice_self, List.take_zero]
    rfl

/-! ### Growth -/

theorem Ok.content_copied (h : b.Ok d z) (off : ℕ) (hlen : off + (b.getInternalEnd - b.start) ≤ bytes.length) :
    slice (overwrite bytes off (slice d.bytes b.start b.getInternalEnd)) off (off + (b.zeroAreaStart - b.start)) ++
        List.replicate (b.zeroAreaEnd - b.zeroAreaStart) 0 ++
      slice (overwrite bytes off (slice d.bytes b.start b.getInternalEnd)) (off + (b.zeroAreaStart - b.start))
        (off + (b.getInternalEnd - b.start)) = b.content d.bytes := by
  have hend := h.internalEnd
  have hs := h.start_le
  have hcopied : (slice d.bytes b.start b.getInternalEnd).length = b.getInternalEnd - b.start := length_slice h.size_le
  have hpart : ∀ x y, y ≤ b.getInternalEnd - b.start →
      slice (overwrite bytes off (slice d.bytes b.start b.getInternalEnd)) (off + x) (off + y) =
        slice d.bytes (b.start + x) (b.start + y) := by
    intro x y hy
    rw [slice_overwrite_inside (by rw [hcopied]; exact hlen) (by rw [hcopied]; exact hy), slice_slice (by omega)]
  have hfirst := hpart 0 (b.zeroAreaStart - b.start) (by omega)
  have hlast := hpart (b.zeroAreaStart - b.start) (b.getInternalEnd - b.start) le_rfl
  rw [Nat.add_zero, Nat.add_zero, Nat.add_sub_cancel' hs] at hfirst
  rw [Nat.add_sub_cancel' hs, Nat.add_sub_cancel' (hs.trans hend.1)] at hlast
  rw [hfirst, hlast, content]

theorem content_of_start_le {b' : Buffer} (hs : b'.start ≤ n) (hn : n ≤ b'.zeroAreaStart) (hlen : n ≤ bytes.length) :
    b'.content bytes = slice bytes b'.start n ++ ({ b' with start := n } : Buffer).content bytes := by
  rw [content, content, ← slice_append_slice hs hn hlen, List.append_assoc, List.append_assoc, List.append_assoc]
  rfl

theorem content_of_le_end {b' : Buffer} (hz : b'.zeroAreaStart ≤ n) (hn : n ≤ b'.getInternalEnd) (hlen : n ≤ bytes.length) :
    b'.content bytes = slice bytes b'.start b'.zeroAreaStart ++ List.replicate (b'.zeroAreaEnd - b'.zeroAreaStart) 0 ++
      slice bytes b'.zeroAreaStart n ++ slice bytes n b'.getInternalEnd := by
  rw [content, ← slice_append_slice hz hn hlen, List.append_assoc, List.append_assoc, List.append_assoc]

/-- **A buffer in a new block**, with `off` bytes before its own and `e` bytes behind them. -/
theorem Ok.moved (h : b.Ok d z) (b' : Buffer) {off e : ℕ} {block : List UInt8}
    (hbytes : overwrite block off (slice d.bytes b.start b.getInternalEnd) = bytes)
    (hlen : off + (b.getInternalEnd - b.start) + e ≤ block.length) (hs : b'.start = 0)
    (h₁ : b'.zeroAreaStart = off + (b.zeroAreaStart - b.start)) (h₂ : b'.zeroAreaEnd = off + (b.zeroAreaEnd - b.start))
    (h₃ : b'.end_ = off + (b.end_ - b.start) + e) :
    b'.Ok ⟨0, b'.end_, bytes⟩ (b.zeroAreaEnd - b.zeroAreaStart) ∧ b'.content bytes =
      slice bytes 0 off ++ b.content d.bytes ++
        slice bytes (off + (b.getInternalEnd - b.start)) (off + (b.getInternalEnd - b.start) + e) := by
  obtain ⟨k, y, m, hk, hy, hm, hi, -⟩ := h.parts
  have hcopied : _ = b.content d.bytes := h.content_copied off ((Nat.le_add_right _ e).trans hlen)
  have hlength : bytes.length = block.length := by
    rw [← hbytes]
    refine length_overwrite ?_
    rw [length_slice h.size_le]
    exact (Nat.le_add_right _ e).trans hlen
  have hsize : b.getInternalEnd - b.start = k + m := by rw [hi, Nat.add_assoc, Nat.add_sub_cancel_left]
  have hfirst : b.zeroAreaStart - b.start = k := by rw [hk, Nat.add_sub_cancel_left]
  have hzeros : b.zeroAreaEnd - b.zeroAreaStart = y := by rw [hy, hk, Nat.add_sub_cancel_left]
  rw [hbytes, hsize, hfirst, hzeros] at hcopied
  rw [hsize] at hlen ⊢
  rw [hzeros]
  rw [hfirst] at h₁
  rw [hy, Nat.add_assoc, Nat.add_sub_cancel_left, ← Nat.add_assoc, ← h₁] at h₂
  rw [show b.end_ - b.start = k + (y + m) by rw [hm, Nat.add_assoc, Nat.add_assoc, Nat.add_sub_cancel_left]] at h₃
  clear hsize hfirst hzeros hk hy hm hi
  have hzeros' : b'.zeroAreaEnd - b'.zeroAreaStart = y := by rw [h₂, Nat.add_sub_cancel_left]
  have hend' : b'.getInternalEnd = off + (k + m) + e := by
    rw [getInternalEnd, hzeros', h₃]
    omega
  constructor
  · refine ⟨hs ▸ Nat.zero_le _, h₂ ▸ Nat.le_add_right _ _, ?_, Nat.zero_le _, hzeros'.le, ?_, ?_⟩
    · rw [h₃, h₂, h₁]
      omega
    · change b'.getInternalEnd + y ≤ b'.end_
      rw [hend', h₃]
      omega
    · change b'.getInternalEnd ≤ bytes.length
      rwa [hend', hlength]
  · have hbefore : slice bytes 0 b'.zeroAreaStart = slice bytes 0 off ++ slice bytes off (off + k) := by
      rw [slice_append_slice (Nat.zero_le _) (Nat.le_add_right _ _) (by omega), h₁]
    have hbehind : slice bytes b'.zeroAreaStart b'.getInternalEnd =
        slice bytes (off + k) (off + (k + m)) ++ slice bytes (off + (k + m)) (off + (k + m) + e) := by
      rw [slice_append_slice (by omega) (Nat.le_add_right _ _) (by omega), h₁, hend']
    rw [← hcopied, content, hs, hbefore, hbehind, hzeros']
    simp only [List.append_assoc]

/-! ### Reading -/

theorem load_eq {off : ℕ} (h : off + n ≤ bytes.length) : load bytes off n = some (slice bytes off (off + n)) := if_pos h

theorem zeroLoop_eq (fuel left : ℕ) (h : left ≤ fuel) : zeroLoop fuel left = List.replicate left 0 := by
  induction fuel generalizing left with
  | zero => rw [Nat.le_zero.mp h, zeroLoop, List.replicate_zero]
  | succ fuel ih =>
    have hsize : 0 < zeroesSize := by decide
    rw [zeroLoop]
    split_ifs with hleft
    · rw [ih _ (by omega), ← List.replicate_add]
      congr 1
      omega
    · rw [Nat.le_zero.mp (not_lt.mp hleft), List.replicate_zero]

/-- **`CopyData` reads the content.** -/
theorem Ok.copyData (h : b.Ok d z) (n : ℕ) : b.copyData d.bytes n = some ((b.content d.bytes).take n) := by
  obtain ⟨k, y, m, h₁, h₂, h₃, hend, hle⟩ := h.parts
  have hfirst : (slice d.bytes b.start (b.start + k)).length = k := by
    rw [length_slice (by omega), Nat.add_sub_cancel_left]
  rw [content_parts h₁ h₂ h₃, Buffer.copyData, h₃, h₂, h₁, Nat.add_sub_cancel_left, Nat.add_sub_cancel_left,
    Nat.add_sub_cancel_left]
  rcases Nat.eq_zero_or_pos n with rfl | hn
  · rw [if_neg (lt_irrefl 0), List.take_zero]
  rw [if_pos hn]
  dsimp only
  rcases le_or_gt n k with hnk | hnk
  · rw [min_eq_right hnk, load_eq (by omega), Option.bind_some, Nat.sub_self, if_neg (lt_irrefl 0),
      List.take_append_of_le_length (by omega), take_slice, min_eq_right (by omega)]
  obtain ⟨j, rfl⟩ := Nat.exists_eq_add_of_le hnk.le
  rw [min_eq_left hnk.le, load_eq (by omega), Option.bind_some, Nat.add_sub_cancel_left, if_pos (by omega),
    zeroLoop_eq _ _ le_rfl, List.take_append, List.take_of_length_le (by omega), hfirst, Nat.add_sub_cancel_left]
  rcases le_or_gt j y with hjy | hjy
  · rw [min_eq_right hjy, Nat.sub_self, if_neg (lt_irrefl 0),
      List.take_append_of_le_length (by rw [List.length_replicate]; exact hjy), List.take_replicate, min_eq_left hjy]
  · obtain ⟨i, rfl⟩ := Nat.exists_eq_add_of_le hjy.le
    rw [min_eq_left hjy.le, Nat.add_sub_cancel_left, if_pos (by omega), load_eq (by omega), Option.map_some, List.append_assoc,
      List.take_append, List.take_of_length_le (by rw [List.length_replicate]; omega), List.length_replicate,
      Nat.add_sub_cancel_left, take_slice, Nat.add_min_add_left]

theorem Ok.getElem?_content (h : b.Ok d z) {k : ℕ} (hk : k < b.getSize) : (b.content d.bytes)[k]? =
    if b.start + k < b.zeroAreaStart then d.bytes[b.start + k]?
    else if b.start + k < b.zeroAreaEnd then some 0 else d.bytes[b.start + k - (b.zeroAreaEnd - b.zeroAreaStart)]? := by
  have hend := h.internalEnd
  have h₁ := h.start_le
  have h₂ := h.zero_le
  have h₃ := h.end_le
  have h₄ := h.size_le
  rw [getSize] at hk
  rw [content, List.getElem?_append, List.getElem?_append, List.length_append, length_slice (by omega),
    List.length_replicate, getElem?_slice, getElem?_slice, List.getElem?_replicate]
  split_ifs with hk₁ hk₂ hk₃
  all_goals first | omega | rfl | skip
  congr 1
  omega

theorem peekU8_eq (it : Iterator) (h : it.dataStart ≤ it.current) (h' : it.current < it.dataEnd) : it.peekU8 bytes =
    if it.current < it.zeroStart then bytes[it.current]?
    else if it.current < it.zeroEnd then some 0 else bytes[it.current - (it.zeroEnd - it.zeroStart)]? := by
  rw [Iterator.peekU8, if_pos]
  rw [Bool.and_eq_true, decide_eq_true_iff, decide_eq_true_iff]
  exact ⟨h, h'⟩

theorem Ok.peekU8 (h : b.Ok d z) {k : ℕ} (hk : k < b.getSize) :
    ({ b.begin with current := b.start + k } : Iterator).peekU8 d.bytes = (b.content d.bytes)[k]? := by
  rw [h.getElem?_content hk, peekU8_eq _ (Nat.le_add_right _ _) (Nat.add_lt_of_lt_sub' hk)]
  rfl

/-- **An iterator reads the content.** -/
theorem Ok.read (h : b.Ok d z) (n : ℕ) (hn : n ≤ b.getSize) :
    Iterator.read d.bytes b.begin n = some ((b.content d.bytes).take n) := by
  have hall : ∀ n k, k + n ≤ b.getSize →
      Iterator.read d.bytes { b.begin with current := b.start + k } n = some (((b.content d.bytes).drop k).take n) := by
    intro n
    induction n with
    | zero => exact fun _ _ => rfl
    | succ n ih =>
      intro k hk
      have hlt : k < (b.content d.bytes).length := by
        rw [h.length_content]
        omega
      have hnext := ih (k + 1) (by omega)
      rw [← Nat.add_assoc] at hnext
      rw [Iterator.read, h.peekU8 (by omega), List.getElem?_eq_getElem hlt, Option.bind_some, hnext, Option.map_some,
        List.drop_eq_getElem_cons hlt, List.take_succ_cons]
  exact hall n 0 (by omega)

end Buffer

/-! ### Writing -/

/-- The next `n` bytes at the iterator are all before or all behind the zero area, from `off` on in the block. -/
structure Iterator.At (it : Iterator) (off n : ℕ) : Prop where
  start_le : it.dataStart ≤ it.current
  le_end : it.current + n ≤ it.dataEnd
  zero_le : it.zeroStart ≤ it.zeroEnd
  side : it.current + n ≤ it.zeroStart ∧ off = it.current ∨
    it.zeroEnd ≤ it.current ∧ off = it.current - (it.zeroEnd - it.zeroStart)

namespace Iterator

variable {it : Iterator} {off : ℕ} {bytes : List UInt8}

theorem store_eq {src : List UInt8} (h : off + src.length ≤ bytes.length) :
    store bytes off src = some (overwrite bytes off src) := if_pos h

theorem At.writeU8 (h : it.At off 1) (hlen : off + 1 ≤ bytes.length) (data : UInt8) :
    it.writeU8 bytes data = some (overwrite bytes off [data], { it with current := it.current + 1 }) := by
  have hside := h.side
  have hcheck : it.check it.current = true := by
    have hstart := h.start_le
    have hend := h.le_end
    simp only [check, Bool.and_eq_true, decide_eq_true_iff, Bool.not_eq_true', Bool.and_eq_false_iff,
      decide_eq_false_iff_not]
    omega
  have hoff : (if it.current < it.zeroStart then it.current else it.current - (it.zeroEnd - it.zeroStart)) = off := by
    have hzero := h.zero_le
    split_ifs <;> omega
  rw [Iterator.writeU8, if_pos hcheck, hoff]
  dsimp only
  rw [store_eq hlen, Option.map_some]

/-- The check passes, although it takes the size for the end. -/
theorem At.write {src : List UInt8} (h : it.At off src.length) (hlen : off + src.length ≤ bytes.length) :
    ∃ it', it.write bytes src = some (overwrite bytes off src, it') := by
  have hside := h.side
  have hcheck : it.checkNoZero it.current src.length = true := by
    have hstart := h.start_le
    have hend := h.le_end
    simp only [checkNoZero, Bool.not_eq_true', Bool.or_eq_false_iff, Bool.and_eq_false_iff, decide_eq_false_iff_not]
    omega
  have hoff : (if it.current ≤ it.zeroStart then it.current else it.current - (it.zeroEnd - it.zeroStart)) = off := by
    have hzero := h.zero_le
    split_ifs <;> omega
  rw [Iterator.write, if_pos hcheck, hoff]
  dsimp only
  rw [store_eq hlen]
  exact ⟨_, rfl⟩

theorem At.writeEach {src : List UInt8} (h : it.At off src.length) (hlen : off + src.length ≤ bytes.length) :
    ∃ it', it.writeEach bytes src = some (overwrite bytes off src, it') := by
  induction src generalizing it off bytes with
  | nil => exact ⟨it, by rw [overwrite_nil]; rfl⟩
  | cons data rest ih =>
    rw [List.length_cons] at h hlen
    have hside := h.side
    have hone : it.At off 1 := ⟨h.start_le, by have := h.le_end; omega, h.zero_le, by omega⟩
    have hnext : ({ it with current := it.current + 1 } : Iterator).At (off + 1) rest.length := by
      have hstart := h.start_le
      have hend := h.le_end
      have hzero := h.zero_le
      refine ⟨?_, ?_, hzero, ?_⟩ <;> dsimp only <;> omega
    have hsame : (overwrite bytes off [data]).length = bytes.length := length_overwrite (by rw [List.length_singleton]; omega)
    have hjoin : overwrite (overwrite bytes off [data]) (off + 1) rest = overwrite bytes off (data :: rest) :=
      overwrite_overwrite (by rw [List.length_singleton]; omega)
    obtain ⟨it', hit'⟩ := ih hnext (by rw [hsame]; omega)
    refine ⟨it', ?_⟩
    rw [Iterator.writeEach, hone.writeU8 (by omega), Option.bind_some, hit', hjoin]

end Iterator

end Ns3Ndn.Network
