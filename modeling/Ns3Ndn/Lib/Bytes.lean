import Mathlib

/-!
# Bytes

Numbers as bytes in either order, buffers of a fixed size, and the bits of a list of bytes, the least significant bit of each byte first.

* `bitAt`, `setBitAt`, **`bitAt_setBitAt`**: the bits.
-/

namespace BytesLib

/-! ## Numbers -/

/-- The less significant byte first. -/
def le16 (v : ℕ) : List UInt8 := [UInt8.ofNat v, UInt8.ofNat (v >>> 8)]

def readLe16 : List UInt8 → Option (ℕ × List UInt8)
  | a :: b :: rest => some (a.toNat ||| b.toNat <<< 8, rest)
  | _ => none

/-- The more significant byte first. -/
def be16 (v : ℕ) : List UInt8 := [UInt8.ofNat (v >>> 8), UInt8.ofNat v]

def readBe16 : List UInt8 → Option (ℕ × List UInt8)
  | a :: b :: rest => some (a.toNat <<< 8 ||| b.toNat, rest)
  | _ => none

def be32 (v : ℕ) : List UInt8 := [UInt8.ofNat (v >>> 24), UInt8.ofNat (v >>> 16), UInt8.ofNat (v >>> 8), UInt8.ofNat v]

def readBe32 : List UInt8 → Option (ℕ × List UInt8)
  | a :: b :: c :: d :: rest => some (a.toNat <<< 24 ||| b.toNat <<< 16 ||| c.toNat <<< 8 ||| d.toNat, rest)
  | _ => none

def readU8 : List UInt8 → Option (UInt8 × List UInt8)
  | a :: rest => some (a, rest)
  | [] => none

@[simp] theorem length_le16 (v : ℕ) : (le16 v).length = 2 := rfl

@[simp] theorem length_be16 (v : ℕ) : (be16 v).length = 2 := rfl

theorem shiftLeft_or_mod (v : ℕ) (h : v < 2 ^ 16) : (v >>> 8 % 2 ^ 8) <<< 8 ||| v % 2 ^ 8 = v := by
  rw [← Nat.shiftLeft_add_eq_or_of_lt (Nat.mod_lt v (by decide)), Nat.shiftLeft_eq, Nat.shiftRight_eq_div_pow]
  omega

theorem readLe16_le16 {v : ℕ} (h : v < 2 ^ 16) (rest : List UInt8) : readLe16 (le16 v ++ rest) = some (v, rest) := by
  show some ((UInt8.ofNat v).toNat ||| (UInt8.ofNat (v >>> 8)).toNat <<< 8, rest) = _
  rw [UInt8.toNat_ofNat', UInt8.toNat_ofNat', Nat.or_comm, shiftLeft_or_mod v h]

theorem readBe16_be16 {v : ℕ} (h : v < 2 ^ 16) (rest : List UInt8) : readBe16 (be16 v ++ rest) = some (v, rest) := by
  show some ((UInt8.ofNat (v >>> 8)).toNat <<< 8 ||| (UInt8.ofNat v).toNat, rest) = _
  rw [UInt8.toNat_ofNat', UInt8.toNat_ofNat', shiftLeft_or_mod v h]

theorem readBe32_be32 {v : ℕ} (h : v < 2 ^ 32) (rest : List UInt8) : readBe32 (be32 v ++ rest) = some (v, rest) := by
  show some ((UInt8.ofNat (v >>> 24)).toNat <<< 24 ||| (UInt8.ofNat (v >>> 16)).toNat <<< 16 |||
    (UInt8.ofNat (v >>> 8)).toNat <<< 8 ||| (UInt8.ofNat v).toNat, rest) = _
  simp only [UInt8.toNat_ofNat']
  have hhigh : v >>> 16 < 2 ^ 16 := by
    rw [Nat.shiftRight_eq_div_pow]
    omega
  have hjoin : (v >>> 24 % 2 ^ 8) <<< 8 ||| v >>> 16 % 2 ^ 8 = v >>> 16 := by
    have := shiftLeft_or_mod (v >>> 16) hhigh
    rwa [← Nat.shiftRight_add] at this
  -- the two upper bytes, and then the next one
  have h16 : (v >>> 24 % 2 ^ 8) <<< 24 ||| (v >>> 16 % 2 ^ 8) <<< 16 = v >>> 16 <<< 16 := by
    have hshift : (v >>> 24 % 2 ^ 8) <<< 24 = (v >>> 24 % 2 ^ 8) <<< 8 <<< 16 := by rw [← Nat.shiftLeft_add]
    rw [hshift, ← Nat.shiftLeft_or_distrib, hjoin]
  have h8 : v >>> 16 <<< 16 ||| (v >>> 8 % 2 ^ 8) <<< 8 = v >>> 8 <<< 8 := by
    have hlt : (v >>> 8 % 2 ^ 8) <<< 8 < 2 ^ 16 := by
      rw [Nat.shiftLeft_eq]
      omega
    rw [← Nat.shiftLeft_add_eq_or_of_lt hlt]
    simp only [Nat.shiftLeft_eq, Nat.shiftRight_eq_div_pow]
    omega
  have h0 : v >>> 8 <<< 8 ||| v % 2 ^ 8 = v := by
    rw [← Nat.shiftLeft_add_eq_or_of_lt (Nat.mod_lt v (by decide)), Nat.shiftLeft_eq, Nat.shiftRight_eq_div_pow]
    omega
  rw [h16, h8, h0]

variable {bytes : List UInt8}

theorem length_of_readU8 {r : UInt8 × List UInt8} (hr : readU8 bytes = some r) :
    bytes.length = 1 + r.2.length := by
  cases bytes with
  | nil => cases hr
  | cons b rest =>
    obtain rfl := Option.some_inj.mp hr
    exact Nat.add_comm _ _

theorem length_of_readBe16 {r : ℕ × List UInt8} (hr : readBe16 bytes = some r) :
    bytes.length = 2 + r.2.length := by
  unfold readBe16 at hr
  split at hr
  · obtain rfl := Option.some_inj.mp hr
    exact Nat.add_comm _ 2
  · cases hr

def takeBytes (n : ℕ) (bytes : List UInt8) : Option (List UInt8 × List UInt8) :=
  if n ≤ bytes.length then some (bytes.take n, bytes.drop n) else none

theorem takeBytes_append {n : ℕ} {field : List UInt8} (h : field.length = n) (rest : List UInt8) :
    takeBytes n (field ++ rest) = some (field, rest) := by
  have hle : n ≤ (field ++ rest).length := by
    rw [List.length_append]
    omega
  rw [takeBytes, if_pos hle, List.take_left' h, List.drop_left' h]

theorem length_of_takeBytes {n : ℕ} {r : List UInt8 × List UInt8} (hr : takeBytes n bytes = some r) :
    bytes.length = n + r.2.length := by
  unfold takeBytes at hr
  by_cases hn : n ≤ bytes.length
  · rw [if_pos hn] at hr
    obtain rfl := Option.some_inj.mp hr
    rw [List.length_drop]
    omega
  · rw [if_neg hn] at hr
    cases hr

/-! ## Buffers -/

def memcpy {n : ℕ} (buf : Vector UInt8 n) (offset : ℕ) (bytes : List UInt8) : Vector UInt8 n :=
  buf.mapIdx fun i b => if offset ≤ i then bytes.getD (i - offset) b else b

def slice {n : ℕ} (buf : Vector UInt8 n) (offset count : ℕ) : List UInt8 := (buf.toList.drop offset).take count

section Buffers

variable {n : ℕ}

variable (buf : Vector UInt8 n)

theorem getElem_memcpy (offset : ℕ) (bytes : List UInt8) {i : ℕ} (hi : i < n) :
    (memcpy buf offset bytes)[i] = if offset ≤ i then bytes.getD (i - offset) buf[i] else buf[i] := by
  simp [memcpy]

theorem length_slice {offset count : ℕ} (h : offset + count ≤ n) : (slice buf offset count).length = count := by
  simp only [slice, List.length_take, List.length_drop, Vector.length_toList]
  omega

theorem getElem?_slice {offset count i : ℕ} (hi : i < count) (h : offset + i < n) :
    (slice buf offset count)[i]? = some buf[offset + i] := by
  rw [slice, List.getElem?_take_of_lt hi, List.getElem?_drop, List.getElem?_eq_getElem (by rw [Vector.length_toList]; exact h)]
  simp

theorem slice_add (offset count count' : ℕ) :
    slice buf offset (count + count') = slice buf offset count ++ slice buf (offset + count) count' := by
  unfold slice
  rw [List.take_add, List.drop_drop]

theorem slice_memcpy {bytes : List UInt8} {count : ℕ} (hlen : bytes.length = count) (h : count ≤ n) :
    slice (memcpy buf 0 bytes) 0 count = bytes := by
  apply List.ext_getElem?
  intro i
  by_cases hi : i < count
  · have hlt : 0 + i < n := by omega
    have hib : i < bytes.length := by omega
    rw [getElem?_slice _ hi hlt, getElem_memcpy, if_pos (Nat.zero_le _), List.getElem?_eq_getElem hib]
    simp [hib]
  · have hle : (slice (memcpy buf 0 bytes) 0 count).length ≤ i := by
      rw [length_slice _ (by omega)]
      omega
    rw [List.getElem?_eq_none hle, List.getElem?_eq_none (by omega)]

end Buffers

/-! ## Bits -/

def mask (i : ℕ) : UInt8 := 1 <<< UInt8.ofNat (i % 8)

def bitAt (bytes : List UInt8) (i : ℕ) : Bool := bytes.getD (i / 8) 0 &&& mask i ≠ 0

def setBitAt (bytes : List UInt8) (i : ℕ) : List UInt8 := bytes.modify (i / 8) (· ||| mask i)

theorem toNat_mask (i : ℕ) : (mask i).toNat = 2 ^ (i % 8) := by
  have hlt : i % 8 < 8 := Nat.mod_lt i (by decide)
  have hpow : 2 ^ (i % 8) < 2 ^ 8 := Nat.pow_lt_pow_right (by decide) hlt
  rw [mask, UInt8.toNat_shiftLeft, UInt8.toNat_ofNat_of_lt' (show i % 8 < 2 ^ 8 by omega), Nat.mod_eq_of_lt hlt]
  show 1 <<< (i % 8) % 2 ^ 8 = _
  rw [Nat.one_shiftLeft, Nat.mod_eq_of_lt hpow]

theorem and_mask_ne_zero (b : UInt8) (i : ℕ) : b &&& mask i ≠ 0 ↔ b.toNat.testBit (i % 8) = true := by
  have hpos : 2 ^ (i % 8) ≠ 0 := (Nat.two_pow_pos _).ne'
  rw [ne_eq, ← UInt8.toNat_inj, UInt8.toNat_and, toNat_mask, Nat.and_two_pow]
  cases b.toNat.testBit (i % 8) <;> simp

theorem bitAt_eq (bytes : List UInt8) (i : ℕ) : bitAt bytes i = (bytes.getD (i / 8) 0).toNat.testBit (i % 8) := by
  rw [bitAt, Bool.eq_iff_iff, decide_eq_true_eq]
  exact and_mask_ne_zero _ i

@[simp] theorem length_setBitAt (bytes : List UInt8) (i : ℕ) : (setBitAt bytes i).length = bytes.length :=
  List.length_modify _ _ _

/-- **One bit is set**, and the others are left. -/
theorem bitAt_setBitAt {bytes : List UInt8} {i : ℕ} (h : i < bytes.length * 8) (j : ℕ) :
    bitAt (setBitAt bytes i) j = (decide (i = j) || bitAt bytes j) := by
  have hlt : i / 8 < bytes.length := by omega
  rw [bitAt_eq, bitAt_eq, setBitAt, List.getD_eq_getElem?_getD, List.getD_eq_getElem?_getD, List.getElem?_modify]
  split_ifs with hbyte
  · rw [← hbyte, List.getElem?_eq_getElem hlt]
    show (bytes[i / 8] ||| mask i).toNat.testBit (j % 8) = (_ || bytes[i / 8].toNat.testBit (j % 8))
    rw [UInt8.toNat_or, Nat.testBit_or, toNat_mask, Nat.testBit_two_pow, Bool.or_comm]
    congr 1
    rw [decide_eq_decide]
    omega
  · have hne : i ≠ j := fun heq => hbyte (by rw [heq])
    rw [decide_eq_false hne, Bool.false_or]
    cases bytes[j / 8]? <;> rfl

theorem bitAt_replicate (n j : ℕ) : bitAt (List.replicate n 0) j = false := by
  rw [bitAt_eq, List.getD_eq_getElem?_getD, List.getElem?_replicate]
  split_ifs <;> exact Nat.zero_testBit _

end BytesLib
