import Ns3Ndn.Network.SequenceNumber

/-!
# Sequence numbers of every width

The class template of `network/utils/sequence-number.h`, at the unsigned type of `w` bits and the signed type of the same width.
The comparison tells numbers apart up to half of the circle, the difference up to one less, and both agree where the numbers
are less than half of the circle apart.

* `sub_eq`: the four branches of the difference are one subtraction on the circle;
* `gt_iff_offset`: two numbers of an arc compare as their offsets from its start;
* **`compares_and_orders`**: what holds of two numbers, and of all numbers of an arc.
-/

namespace Ns3Ndn.Network

/-- `SequenceNumber<NUMERIC_TYPE, SIGNED_TYPE>`, by its `m_value`. -/
abbrev SequenceNumber (w : ℕ) := BitVec w

namespace SequenceNumber

section Operators

variable {w : ℕ} (a b : SequenceNumber w)

def maxValue (w : ℕ) : BitVec w := BitVec.allOnes w

def halfMaxValue (w : ℕ) : BitVec w := maxValue w / 2#w

/-- `operator +` for a `SIGNED_TYPE`. -/
def add (delta : BitVec w) : SequenceNumber w := a + delta

/-- `operator -`, a `SIGNED_TYPE`: the casts keep the bits, and `BitVec.toInt` reads them. -/
def sub : BitVec w :=
  if a > b then
    let diff := a - b
    if diff < halfMaxValue w then diff else -(maxValue w - a + 1#w + b)
  else
    let diff := b - a
    if diff < halfMaxValue w then -diff else maxValue w - b + 1#w + a

def gt : Bool :=
  (decide (a > b) && decide (a - b ≤ halfMaxValue w)) || (decide (b > a) && decide (b - a > halfMaxValue w))

def le : Bool := ! gt a b

def ge : Bool := gt a b || a == b

def lt : Bool := ! gt a b && a != b

end Operators

/-! ## On the circle -/

section Circle

variable {w : ℕ} {a b c s : SequenceNumber w}

/-- The way from `s` to `a`. -/
def offset (s a : SequenceNumber w) : ℕ := (a - s).toNat

/-- The shorter way between two numbers. -/
def distance (a b : SequenceNumber w) : ℕ := min (offset b a) (offset a b)

theorem two_pow_eq (hw : 2 ≤ w) : 2 ^ w = 2 * 2 ^ (w - 1) := by
  rw [← pow_succ', Nat.sub_add_cancel (by omega)]

theorem toNat_halfMaxValue (hw : 2 ≤ w) : (halfMaxValue w).toNat = 2 ^ (w - 1) - 1 := by
  have hpow := two_pow_eq hw
  have hfour : 2 ^ 2 ≤ 2 ^ w := Nat.pow_le_pow_right (by omega) hw
  have htwo : (2#w).toNat = 2 := by rw [BitVec.toNat_ofNat, Nat.mod_eq_of_lt (by omega)]
  rw [halfMaxValue, maxValue, BitVec.toNat_udiv, BitVec.toNat_allOnes, htwo]
  omega

/-- **The four branches are one subtraction.** -/
theorem sub_eq (a b : SequenceNumber w) : sub a b = a - b := by
  have hmax : ∀ x y : BitVec w, maxValue w - x + 1#w + y = y - x := by
    intro x y
    rw [maxValue, ← BitVec.neg_one_eq_allOnes]
    ring
  rw [sub]
  dsimp only
  split_ifs
  · rfl
  · rw [hmax, neg_sub]
  · rw [neg_sub]
  · exact hmax b a

theorem offset_lt (s a : SequenceNumber w) : offset s a < 2 ^ w := (a - s).isLt

theorem offset_inj (h : offset s a = offset s b) : a = b := sub_left_injective (BitVec.eq_of_toNat_eq h)

theorem offset_eq (b a : SequenceNumber w) :
    offset b a = if b.toNat ≤ a.toNat then a.toNat - b.toNat else 2 ^ w - (b.toNat - a.toNat) := by
  have ha := a.isLt
  have hb := b.isLt
  rw [offset, BitVec.toNat_sub]
  split_ifs with h
  · rw [show 2 ^ w - b.toNat + a.toNat = a.toNat - b.toNat + 2 ^ w by omega, Nat.add_mod_right, Nat.mod_eq_of_lt (by omega)]
  · rw [Nat.mod_eq_of_lt (by omega)]
    omega

theorem offset_eq_offset (s b a : SequenceNumber w) :
    offset b a = if offset s b ≤ offset s a then offset s a - offset s b else 2 ^ w - (offset s b - offset s a) := by
  have hshift : offset b a = offset (b - s) (a - s) := by rw [offset, offset, sub_sub_sub_cancel_right]
  rw [hshift, offset_eq]
  rfl

theorem gt_iff (hw : 2 ≤ w) : gt a b = true ↔
    (b.toNat < a.toNat ∧ a.toNat - b.toNat < 2 ^ (w - 1)) ∨ (a.toNat < b.toNat ∧ 2 ^ (w - 1) ≤ b.toNat - a.toNat) := by
  have hhalf := toNat_halfMaxValue hw
  have hpos := Nat.two_pow_pos (w - 1)
  have hab := offset_eq b a
  have hba := offset_eq a b
  rw [offset] at hab hba
  rw [gt, Bool.or_eq_true, Bool.and_eq_true, Bool.and_eq_true, decide_eq_true_eq, decide_eq_true_eq, decide_eq_true_eq,
    decide_eq_true_eq, gt_iff_lt, gt_iff_lt, gt_iff_lt, BitVec.lt_def, BitVec.lt_def, BitVec.lt_def, BitVec.le_def, hab, hba,
    hhalf]
  split_ifs <;> omega

/-- **The greater number** of two is less than half of the circle ahead. -/
theorem gt_iff_offset (hw : 2 ≤ w) (h : distance a b < 2 ^ (w - 1)) :
    gt a b = true ↔ 0 < offset b a ∧ offset b a < 2 ^ (w - 1) := by
  have hpow := two_pow_eq hw
  have ha := a.isLt
  have hb := b.isLt
  rw [distance, min_lt_iff, offset_eq b a, offset_eq a b] at h
  rw [gt_iff hw, offset_eq b a]
  split_ifs at h ⊢ <;> omega

theorem beq_iff_offset : (a == b) = true ↔ offset b a = 0 := by
  have hself : offset b b = 0 := by rw [offset, sub_self]; rfl
  rw [beq_iff_eq, ← hself]
  exact ⟨congrArg (offset b), offset_inj⟩

theorem offset_ne_half (hw : 2 ≤ w) (h : distance a b < 2 ^ (w - 1)) : offset b a ≠ 2 ^ (w - 1) := by
  have hpow := two_pow_eq hw
  rw [distance, offset_eq a b, offset_eq b a] at h
  rw [offset_eq b a]
  split_ifs at h ⊢ <;> omega

theorem lt_iff_offset (hw : 2 ≤ w) (h : distance a b < 2 ^ (w - 1)) :
    lt a b = true ↔ 2 ^ (w - 1) < offset b a := by
  have hpow := two_pow_eq hw
  have hlt := offset_lt b a
  have hne := offset_ne_half hw h
  rw [lt, Bool.and_eq_true, bne, Bool.not_eq_true', Bool.not_eq_true', ← Bool.not_eq_true, ← Bool.not_eq_true,
    gt_iff_offset hw h, beq_iff_offset]
  omega

theorem gt_swap (hw : 2 ≤ w) (h : distance a b < 2 ^ (w - 1)) : gt b a = lt a b := by
  have hpow := two_pow_eq hw
  have h' : distance b a < 2 ^ (w - 1) := by rwa [distance, min_comm]
  have ha := a.isLt
  have hb := b.isLt
  rw [Bool.eq_iff_iff, gt_iff_offset hw h', lt_iff_offset hw h, offset_eq a b, offset_eq b a]
  split_ifs <;> omega

theorem toInt_sub (hw : 2 ≤ w) (a b : SequenceNumber w) :
    (sub a b).toInt = if offset b a < 2 ^ (w - 1) then (offset b a : ℤ) else (offset b a : ℤ) - (2 ^ w : ℕ) := by
  have hpow := two_pow_eq hw
  rw [sub_eq, BitVec.toInt_eq_toNat_cond, offset]
  split_ifs <;> omega

/-! ## All together -/

structure Compares (a b : SequenceNumber w) : Prop where
  one : [lt a b, a == b, gt a b].count true = 1
  le_eq : le a b = (lt a b || a == b)
  ge_eq : ge a b = (gt a b || a == b)
  swap : gt b a = lt a b
  gt_iff : gt a b = true ↔ 0 < (sub a b).toInt
  add_sub : add b (sub a b) = a
  neg : (sub a b).toInt = -(sub b a).toInt

structure Orders (s : SequenceNumber w) (S : Set (SequenceNumber w)) : Prop where
  strictTotalOrder : IsStrictTotalOrder S fun a b => lt a.1 b.1 = true
  lt_iff : ∀ a ∈ S, ∀ b ∈ S, (lt a b = true ↔ offset s a < offset s b)

theorem compares (hw : 2 ≤ w) (h : distance a b < 2 ^ (w - 1)) : Compares a b := by
  have hpow := two_pow_eq hw
  have hbound := offset_lt b a
  have hne := offset_ne_half hw h
  have hgt := gt_iff_offset hw h
  have hlt := lt_iff_offset hw h
  have heq : (a == b) = true ↔ _ := beq_iff_offset
  have hle : le a b = (lt a b || a == b) := by
    rw [Bool.eq_iff_iff, le, Bool.not_eq_true', ← Bool.not_eq_true, Bool.or_eq_true, hgt, hlt, heq]
    omega
  refine ⟨?_, hle, rfl, gt_swap hw h, ?_, ?_, ?_⟩
  · -- the way from `b` to `a` is zero, short or long
    rcases Nat.eq_zero_or_pos (offset b a) with hzero | hpos
    · rw [heq.mpr hzero, Bool.eq_false_iff.mpr (mt hlt.mp (by omega)), Bool.eq_false_iff.mpr (mt hgt.mp (by omega))]
      rfl
    · rw [Bool.eq_false_iff.mpr (mt heq.mp (by omega))]
      rcases Nat.lt_or_gt_of_ne hne with hshort | hlong
      · rw [hgt.mpr ⟨hpos, hshort⟩, Bool.eq_false_iff.mpr (mt hlt.mp (by omega))]
        rfl
      · rw [hlt.mpr hlong, Bool.eq_false_iff.mpr (mt hgt.mp (by omega))]
        rfl
  · rw [hgt, toInt_sub hw]
    split_ifs <;> omega
  · rw [add, sub_eq]
    exact add_sub_cancel b a
  · have hback : offset a b = if offset b a = 0 then 0 else 2 ^ w - offset b a := by
      have ha := a.isLt
      have hb := b.isLt
      rw [offset_eq a b, offset_eq b a]
      split_ifs <;> omega
    rw [toInt_sub hw, toInt_sub hw, hback]
    split_ifs <;> omega

theorem distance_of_offset (ha : offset s a < 2 ^ (w - 1)) (hb : offset s b < 2 ^ (w - 1)) :
    distance a b < 2 ^ (w - 1) := by
  rw [distance, min_lt_iff, offset_eq_offset s b a, offset_eq_offset s a b]
  split_ifs <;> omega

/-- **Two numbers of an arc** compare as their offsets. -/
theorem lt_iff_of_offset (hw : 2 ≤ w) (ha : offset s a < 2 ^ (w - 1)) (hb : offset s b < 2 ^ (w - 1)) :
    lt a b = true ↔ offset s a < offset s b := by
  have hpow := two_pow_eq hw
  rw [lt_iff_offset hw (distance_of_offset ha hb), offset_eq_offset s b a]
  split_ifs <;> omega

theorem orders (hw : 2 ≤ w) {S : Set (SequenceNumber w)} (hS : ∀ a ∈ S, offset s a < 2 ^ (w - 1)) : Orders s S := by
  have hlt : ∀ a ∈ S, ∀ b ∈ S, (lt a b = true ↔ offset s a < offset s b) :=
    fun a ha b hb => lt_iff_of_offset hw (hS a ha) (hS b hb)
  refine ⟨{ trichotomous := ?_, irrefl := ?_, trans := ?_ }, hlt⟩
  · rintro ⟨a, ha⟩ ⟨b, hb⟩ hab hba
    rw [hlt a ha b hb] at hab
    rw [hlt b hb a ha] at hba
    have heq : offset s a = offset s b := by omega
    exact Subtype.ext (offset_inj heq)
  · rintro ⟨a, ha⟩ h
    exact lt_irrefl _ ((hlt a ha a ha).mp h)
  · rintro ⟨a, ha⟩ ⟨b, hb⟩ ⟨c, hc⟩ hab hbc
    exact (hlt a ha c hc).mpr (((hlt a ha b hb).mp hab).trans ((hlt b hb c hc).mp hbc))

/-- **Two numbers less than half of the circle apart** are told apart by their difference, and the numbers of an arc that is
shorter than half of the circle are ordered from its start on. -/
theorem compares_and_orders (hw : 2 ≤ w) :
    (∀ a b : SequenceNumber w, distance a b < 2 ^ (w - 1) → Compares a b) ∧
      ∀ (s : SequenceNumber w) (S : Set (SequenceNumber w)), (∀ a ∈ S, offset s a < 2 ^ (w - 1)) → Orders s S :=
  ⟨fun _ _ h => compares hw h, fun _ _ hS => orders hw hS⟩

/-- Across the wrap of eight bits. -/
theorem compares_and_orders_wrap : Compares 3#8 250#8 ∧ Orders 250#8 {a : SequenceNumber 8 | a = 250#8 ∨ a = 3#8} :=
  ⟨(compares_and_orders (by decide)).1 3#8 250#8 (by decide),
    (compares_and_orders (by decide)).2 250#8 _ (by rintro a (rfl | rfl) <;> decide)⟩

end Circle

section Width32

variable (a b : SequenceNumber32)

end Width32

end SequenceNumber

end Ns3Ndn.Network
