import Mathlib

/-!
# Sequence numbers of the LTE radio link control

`lte/model/lte-rlc-sequence-number.h`: numbers modulo 1024, compared by their distance from a modulus base that each of them
carries. The distance is a remainder of C++ in `uint16_t`: a negative one wraps to a number near 65536, which is larger than
every distance that is not negative, so the order from the base on is right.

* **`gt_numbered`**, `le_numbered`, `ge_numbered`, `lt_numbered`: less than 1024 from the base on, the operators compare what is counted.
-/

namespace Ns3Ndn.Lte

/-- `m_value` and `m_modulusBase`, both `uint16_t`. -/
@[ext]
structure SequenceNumber10 where
  value : ℕ
  modulusBase : ℕ
  deriving DecidableEq, Repr

namespace SequenceNumber10

/-- The explicit constructor. -/
def ofValue (value : ℕ) : SequenceNumber10 := ⟨value % 1024, 0⟩

instance : Inhabited SequenceNumber10 := ⟨ofValue 0⟩

variable (a b : SequenceNumber10)

def setModulusBase (modulusBase : ℕ) : SequenceNumber10 := { a with modulusBase := modulusBase }

/-- `operator= (uint16_t)`, which keeps the base. -/
def assign (value : ℕ) : SequenceNumber10 := { a with value := value % 1024 }

/-- What `operator++` leaves. -/
def succ : SequenceNumber10 := { a with value := (a.value + 1) % 1024 }

def add (delta : ℕ) : SequenceNumber10 := { a with value := (a.value + delta) % 1024 }

/-- The remainder of C++ has the sign of the difference, and goes through `uint16_t` into the constructor. -/
def sub (delta : ℕ) : SequenceNumber10 :=
  { a with value := ((((a.value : ℤ) - delta).tmod 1024) % 65536).toNat % 1024 }

/-- `v1` and `v2` of the comparison. -/
def distance : ℕ := ((((a.value : ℤ) - a.modulusBase).tmod 1024) % 65536).toNat

/-- `operator>`, with its assertion. -/
def gt : Option Bool := if a.modulusBase = b.modulusBase then some (b.distance < a.distance) else none

def le : Option Bool := (a.gt b).map fun g => !g

def ge : Option Bool := (a.gt b).map fun g => g || a.value = b.value

def lt : Option Bool := (a.gt b).map fun g => !g && a.value ≠ b.value

/-! ## Numbers without a turn -/

def numbered (base n : ℕ) : SequenceNumber10 := ⟨n % 1024, base % 1024⟩

variable {base m n : ℕ}

@[simp] theorem value_numbered (base n : ℕ) : (numbered base n).value = n % 1024 := rfl

@[simp] theorem modulusBase_numbered (base n : ℕ) : (numbered base n).modulusBase = base % 1024 := rfl

@[simp] theorem setModulusBase_numbered (base b n : ℕ) : (numbered base n).setModulusBase (b % 1024) = numbered b n := rfl

@[simp] theorem setModulusBase_ofValue (base n : ℕ) : (ofValue n).setModulusBase (base % 1024) = numbered base n := rfl

@[simp] theorem succ_numbered (base n : ℕ) : (numbered base n).succ = numbered base (n + 1) := by
  simp [succ, numbered]

@[simp] theorem add_numbered (base n delta : ℕ) : (numbered base n).add delta = numbered base (n + delta) := by
  simp [add, numbered]

/-- The number of the PDU with sequence number `value`, if it is less than 1024 from PDU `base` on. -/
def counted (base value : ℕ) : ℕ := base + (value + 1024 - base % 1024) % 1024

theorem counted_mod (h : base ≤ n) (h' : n < base + 1024) : counted base (n % 1024) = n := by
  rw [counted]
  omega

theorem numbered_add_turn (base n : ℕ) : numbered base (n + 1024) = numbered base n := by
  simp [numbered]

theorem distance_numbered (hn : base ≤ n) (hn' : n < base + 1024) :
    (numbered base n).distance = if base % 1024 + (n - base) < 1024 then n - base else 64512 + (n - base) := by
  obtain ⟨d, rfl⟩ := Nat.exists_eq_add_of_le hn
  have hd : d < 1024 := Nat.lt_of_add_lt_add_left hn'
  have hlt : base % 1024 < 1024 := Nat.mod_lt base (by decide)
  rw [distance, value_numbered, modulusBase_numbered, Nat.add_sub_cancel_left, ← Nat.mod_add_mod]
  clear hn hn'
  generalize base % 1024 = r at *
  split_ifs with hturn
  · rw [Nat.mod_eq_of_lt hturn, Nat.cast_add, add_sub_cancel_left, Int.tmod_eq_of_lt (Int.natCast_nonneg d) (by omega),
      Int.emod_eq_of_lt (Int.natCast_nonneg d) (by omega), Int.toNat_natCast]
  · -- the number has turned, and the difference is negative
    obtain ⟨t, ht⟩ := Nat.exists_eq_add_of_le (not_lt.mp hturn)
    rw [ht, Nat.add_mod_left, Nat.mod_eq_of_lt (by omega), show (t : ℤ) - r = -(1024 - d : ℕ) by omega, Int.neg_tmod,
      Int.tmod_eq_of_lt (Int.natCast_nonneg _) (by omega)]
    omega

/-- **The order from the base on** is the order of what is counted. -/
theorem gt_numbered (hm : base ≤ m) (hm' : m < base + 1024) (hn : base ≤ n) (hn' : n < base + 1024) :
    (numbered base m).gt (numbered base n) = some (decide (n < m)) := by
  have hbase : (numbered base m).modulusBase = (numbered base n).modulusBase := rfl
  rw [gt, if_pos hbase, Option.some_inj, decide_eq_decide, distance_numbered hm hm', distance_numbered hn hn']
  split_ifs <;> omega

theorem le_numbered (hm : base ≤ m) (hm' : m < base + 1024) (hn : base ≤ n) (hn' : n < base + 1024) :
    (numbered base m).le (numbered base n) = some (decide (m ≤ n)) := by
  rw [le, gt_numbered hm hm' hn hn', Option.map_some, Option.some_inj, Bool.eq_iff_iff]
  simp

theorem ge_numbered (hm : base ≤ m) (hm' : m < base + 1024) (hn : base ≤ n) (hn' : n < base + 1024) :
    (numbered base m).ge (numbered base n) = some (decide (n ≤ m)) := by
  rw [ge, gt_numbered hm hm' hn hn', Option.map_some, Option.some_inj, Bool.eq_iff_iff]
  rw [Bool.or_eq_true, decide_eq_true_eq, decide_eq_true_eq, decide_eq_true_eq, value_numbered, value_numbered]
  omega

theorem lt_numbered (hm : base ≤ m) (hm' : m < base + 1024) (hn : base ≤ n) (hn' : n < base + 1024) :
    (numbered base m).lt (numbered base n) = some (decide (m < n)) := by
  rw [lt, gt_numbered hm hm' hn hn', Option.map_some, Option.some_inj, Bool.eq_iff_iff]
  rw [Bool.and_eq_true, Bool.not_eq_true', decide_eq_false_iff_not, decide_eq_true_eq, decide_eq_true_eq, value_numbered,
    value_numbered]
  omega

end SequenceNumber10

end Ns3Ndn.Lte
