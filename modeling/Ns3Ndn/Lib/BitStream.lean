import Mathlib

/-!
# Streams of bits in octets

Bits are written to octets from the highest bit on, and read in this order.
-/

namespace BitStreamLib

/-! ## Bits -/

/-- The lowest `n` bits of a word, the highest one first. -/
def bits (f : ℕ → Bool) : ℕ → List Bool
  | 0 => []
  | n + 1 => f n :: bits f n

variable {f g : ℕ → Bool} {n i k : ℕ}

theorem bits_succ : bits f (n + 1) = f n :: bits f n := rfl

@[simp] theorem length_bits (f : ℕ → Bool) (n : ℕ) : (bits f n).length = n := by
  induction n with
  | zero => rfl
  | succ n ih => rw [bits_succ, List.length_cons, ih]

theorem bits_congr (h : ∀ i < n, f i = g i) : bits f n = bits g n := by
  induction n with
  | zero => rfl
  | succ n ih => rw [bits_succ, bits_succ, h n (Nat.lt_succ_self n), ih fun i hi => h i (Nat.lt_succ_of_lt hi)]

theorem getElem?_bits (hi : i < n) : (bits f n)[i]? = some (f (n - 1 - i)) := by
  induction n generalizing i with
  | zero => exact absurd hi (Nat.not_lt_zero i)
  | succ n ih =>
    cases i with
    | zero => rfl
    | succ i =>
      rw [bits_succ, List.getElem?_cons_succ, ih (Nat.lt_of_succ_lt_succ hi)]
      congr 2
      omega

theorem bits_add (f : ℕ → Bool) (n k : ℕ) : bits f (n + k) = bits (fun i => f (n + i)) k ++ bits f n := by
  induction k with
  | zero => rfl
  | succ k ih => rw [← Nat.add_assoc, bits_succ, bits_succ, ih, List.cons_append]

/-! ## Octets -/

def octetBits (octet : UInt8) : List Bool := bits octet.toNat.testBit 8

@[simp] theorem length_octetBits (octet : UInt8) : (octetBits octet).length = 8 := length_bits _ 8

theorem length_flatMap_octetBits (octets : List UInt8) : (octets.flatMap octetBits).length = 8 * octets.length := by
  rw [List.length_flatMap]
  simp only [length_octetBits, List.map_const', List.sum_replicate, smul_eq_mul, Nat.mul_comm]

/-- The mask of bit `k` of an octet, the highest one first. After the last bit it is zero. -/
def mask (k : ℕ) : UInt8 := UInt8.ofNat (0x80 >>> k)

theorem toNat_mask (hk : k < 8) : (mask k).toNat = 2 ^ (7 - k) := by
  interval_cases k <;> rfl

theorem mask_step (hk : k < 8) : (mask k >>> 1) &&& ~~~ mask k = mask (k + 1) := by
  interval_cases k <;> rfl

/-- The octet has the bits, from its highest one on, and zeros after them. -/
structure Holds (octet : UInt8) (bs : List Bool) : Prop where
  le : bs.length ≤ 8
  testBit : ∀ i < 8, octet.toNat.testBit (7 - i) = bs.getD i false

variable {octet : UInt8} {bs : List Bool} {b : Bool}

theorem holds_nil : Holds 0 [] where
  le := Nat.zero_le 8
  testBit := fun i _ => by rw [show (0 : UInt8).toNat = 0 from rfl, Nat.zero_testBit]; rfl

/-- **One bit more.** -/
theorem Holds.concat (h : Holds octet bs) (hlt : bs.length < 8) (b : Bool) :
    Holds (octet ||| if b then mask bs.length else 0) (bs ++ [b]) where
  le := by rw [List.length_append]; exact hlt
  testBit := fun i hi => by
    have hold := h.testBit i hi
    have hmask : (if b then mask bs.length else 0 : UInt8).toNat.testBit (7 - i) = (b && decide (i = bs.length)) := by
      cases b with
      | false => exact Nat.zero_testBit _
      | true =>
        rw [if_pos rfl, toNat_mask hlt, Nat.testBit_two_pow, Bool.true_and]
        exact decide_eq_decide.mpr (by omega)
    rw [UInt8.toNat_or, Nat.testBit_or, hold, hmask, List.getD_eq_getElem?_getD, List.getD_eq_getElem?_getD]
    rcases lt_trichotomy i bs.length with hlt | rfl | hgt
    · rw [List.getElem?_append_left hlt, decide_eq_false hlt.ne, Bool.and_false, Bool.or_false]
    · rw [List.getElem?_concat_length, List.getElem?_eq_none le_rfl, decide_eq_true rfl, Bool.and_true]
      exact Bool.false_or b
    · rw [List.getElem?_eq_none hgt.le, List.getElem?_eq_none (by rw [List.length_append]; exact hgt), decide_eq_false hgt.ne',
        Bool.and_false]
      rfl

theorem Holds.octetBits (h : Holds octet bs) : octetBits octet = bs ++ List.replicate (8 - bs.length) false := by
  have hle := h.le
  apply List.ext_getElem?
  intro i
  by_cases hi : i < 8
  · have hbit := h.testBit i hi
    rw [List.getD_eq_getElem?_getD] at hbit
    rw [BitStreamLib.octetBits, getElem?_bits hi, hbit]
    rcases Nat.lt_or_ge i bs.length with hlt | hge
    · rw [List.getElem?_append_left hlt, List.getElem?_eq_getElem hlt, Option.getD_some]
    · rw [List.getElem?_append_right hge, List.getElem?_eq_none hge, List.getElem?_replicate_of_lt (by omega), Option.getD_none]
  · rw [List.getElem?_eq_none (by rw [length_octetBits]; omega),
      List.getElem?_eq_none (by rw [List.length_append, List.length_replicate]; omega)]

theorem and_mask_ne_zero (octet : UInt8) (hk : k < 8) : octet &&& mask k ≠ 0 ↔ octet.toNat.testBit (7 - k) = true := by
  rw [Ne, ← UInt8.toNat_inj, UInt8.toNat_and, toNat_mask hk, Nat.and_two_pow]
  cases octet.toNat.testBit (7 - k) <;> simp

theorem octetBits_shiftLeft (octet : UInt8) (hk : k < 8) :
    octetBits (octet <<< UInt8.ofNat k) = (octetBits octet).drop k ++ List.replicate k false := by
  have hshift : (octet <<< UInt8.ofNat k).toNat = octet.toNat <<< k % 2 ^ 8 := by
    rw [UInt8.toNat_shiftLeft, UInt8.toNat_ofNat_of_lt' (by omega : k < 2 ^ 8), Nat.mod_eq_of_lt hk]
  apply List.ext_getElem?
  intro i
  by_cases hi : i < 8
  · rw [octetBits, getElem?_bits hi, hshift, Nat.testBit_mod_two_pow, Nat.testBit_shiftLeft, decide_eq_true (by omega : 8 - 1 - i < 8),
      Bool.true_and]
    by_cases hlt : i < 8 - k
    · rw [List.getElem?_append_left (by rw [List.length_drop, length_octetBits]; exact hlt), List.getElem?_drop, octetBits,
        getElem?_bits (by omega), decide_eq_true (by omega : 8 - 1 - i ≥ k), Bool.true_and]
      congr 2
      omega
    · rw [List.getElem?_append_right (by rw [List.length_drop, length_octetBits]; omega), List.length_drop, length_octetBits,
        List.getElem?_replicate_of_lt (by omega), decide_eq_false (by omega), Bool.false_and]
  · rw [List.getElem?_eq_none (by rw [length_octetBits]; omega),
      List.getElem?_eq_none (by rw [List.length_append, List.length_drop, List.length_replicate, length_octetBits]; omega)]

end BitStreamLib
