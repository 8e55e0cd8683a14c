import Mathlib

/-!
# Sequence numbers

`network/utils/sequence-number.h`: 32-bit numbers on a circle, compared by the shorter way between them. The numbers of a
stream are those of its positions, from a first number on. Less than half of the circle apart, they compare as the
positions do.

* **`gt_seqAt`**, `lt_seqAt`, `le_seqAt`, `ge_seqAt`, `seqAt_inj`, `toUInt32_sub`.
-/

namespace Ns3Ndn.Network

abbrev SequenceNumber32 := UInt32

namespace SequenceNumber32

variable (a b : SequenceNumber32)

def halfMaxValue : UInt32 := 0xffffffff / 2

def gt : Bool := (decide (a > b) && decide (a - b ≤ halfMaxValue)) || (decide (b > a) && decide (b - a > halfMaxValue))

def le : Bool := ! gt a b

def ge : Bool := gt a b || a == b

def lt : Bool := ! gt a b && a != b

def sub : Int32 :=
  if a > b then
    if a - b < halfMaxValue then (a - b).toInt32 else -(0xffffffff - a + 1 + b).toInt32
  else if b - a < halfMaxValue then -(b - a).toInt32
  else (0xffffffff - b + 1 + a).toInt32

def seqAt (isn : SequenceNumber32) (i : ℕ) : SequenceNumber32 := isn + UInt32.ofNat i

variable {a b} {isn : SequenceNumber32} {i j : ℕ}

theorem toNat_seqAt (isn : SequenceNumber32) (i : ℕ) : (seqAt isn i).toNat = (isn.toNat + i) % 2 ^ 32 := by
  rw [seqAt, UInt32.toNat_add, UInt32.toNat_ofNat', Nat.add_mod_mod]

theorem gt_iff : gt a b = true ↔
    (b.toNat < a.toNat ∧ a.toNat - b.toNat < 2 ^ 31) ∨ (a.toNat < b.toNat ∧ 2 ^ 31 ≤ b.toNat - a.toNat) := by
  have ha := a.toNat_lt
  have hb := b.toNat_lt
  have hhalf : halfMaxValue.toNat = 2 ^ 31 - 1 := by decide
  rw [gt, Bool.or_eq_true, Bool.and_eq_true, Bool.and_eq_true, decide_eq_true_eq, decide_eq_true_eq, decide_eq_true_eq,
    decide_eq_true_eq, gt_iff_lt, gt_iff_lt, gt_iff_lt, UInt32.lt_iff_toNat_lt, UInt32.lt_iff_toNat_lt,
    UInt32.lt_iff_toNat_lt, UInt32.le_iff_toNat_le, UInt32.toNat_sub, UInt32.toNat_sub, hhalf]
  omega

/-- **Less than half of the circle apart**, numbers compare as the positions. -/
theorem gt_seqAt (h : i < j + 2 ^ 31) (h' : j < i + 2 ^ 31) : gt (seqAt isn i) (seqAt isn j) = decide (j < i) := by
  rw [Bool.eq_iff_iff, gt_iff, decide_eq_true_eq, toNat_seqAt, toNat_seqAt]
  omega

theorem le_seqAt (h : i < j + 2 ^ 31) (h' : j < i + 2 ^ 31) : le (seqAt isn i) (seqAt isn j) = decide (i ≤ j) := by
  rw [le, gt_seqAt h h', ← decide_not, decide_eq_decide, not_lt]

theorem seqAt_inj (h : i < j + 2 ^ 32) (h' : j < i + 2 ^ 32) : seqAt isn i = seqAt isn j ↔ i = j := by
  rw [← UInt32.toNat_inj, toNat_seqAt, toNat_seqAt]
  omega

theorem beq_seqAt (h : i < j + 2 ^ 32) (h' : j < i + 2 ^ 32) : (seqAt isn i == seqAt isn j) = decide (i = j) := by
  rw [Bool.eq_iff_iff, beq_iff_eq, decide_eq_true_eq, seqAt_inj h h']

theorem lt_seqAt (h : i < j + 2 ^ 31) (h' : j < i + 2 ^ 31) : lt (seqAt isn i) (seqAt isn j) = decide (i < j) := by
  rw [lt, gt_seqAt h h', bne, beq_seqAt (by omega) (by omega), ← decide_not, ← decide_not, ← Bool.decide_and,
    decide_eq_decide]
  omega

theorem ge_seqAt (h : i < j + 2 ^ 31) (h' : j < i + 2 ^ 31) : ge (seqAt isn i) (seqAt isn j) = decide (j ≤ i) := by
  rw [ge, gt_seqAt h h', beq_seqAt (by omega) (by omega), ← Bool.decide_or, decide_eq_decide]
  omega

/-- The difference as a `uint32_t`. -/
theorem toUInt32_sub (a b : SequenceNumber32) : (sub a b).toUInt32 = a - b := by
  have hmax : ∀ x y : UInt32, 0xffffffff - x + 1 + y = y - x := by
    intro x y
    rw [← UInt32.toNat_inj, UInt32.toNat_add, UInt32.toNat_add, UInt32.toNat_sub, UInt32.toNat_sub]
    have hx := x.toNat_lt
    have hy := y.toNat_lt
    have h1 : (1 : UInt32).toNat = 1 := rfl
    have h2 : (0xffffffff : UInt32).toNat = 2 ^ 32 - 1 := rfl
    omega
  rw [sub]
  split_ifs
  · rfl
  · rw [hmax, Int32.toUInt32_neg, UInt32.toUInt32_toInt32, UInt32.neg_sub]
  · rw [Int32.toUInt32_neg, UInt32.toUInt32_toInt32, UInt32.neg_sub]
  · rw [hmax, UInt32.toUInt32_toInt32]

theorem seqAt_add (isn : SequenceNumber32) (i n : ℕ) : seqAt isn i + UInt32.ofNat n = seqAt isn (i + n) := by
  rw [seqAt, seqAt, UInt32.add_assoc, UInt32.ofNat_add]

theorem seqAt_sub_seqAt (h : j ≤ i) : seqAt isn i - seqAt isn j = UInt32.ofNat (i - j) := by
  have hsum : seqAt isn i = seqAt isn j + UInt32.ofNat (i - j) := by rw [seqAt_add, Nat.add_sub_cancel' h]
  rw [hsum, UInt32.add_comm, UInt32.add_sub_cancel]

end SequenceNumber32

end Ns3Ndn.Network
