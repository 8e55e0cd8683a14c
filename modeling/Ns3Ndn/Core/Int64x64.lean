import Mathlib
import Ns3Ndn.Lib.Loop
import Ns3Ndn.Lib.SignMagnitude

/-!
# Q64.64 fixed point numbers

`int64x64_t` on native 128-bit integers. A value `v` stands for `v / 2^64`.

* `Mul`, `Umul`: the product, from four partial products;
* `Invert`, `MulByInvert`: division by an integer, as a product with its rounded reciprocal.
-/

namespace Ns3Ndn

open LoopLib SignMagnitudeLib

/-- A Q64.64 number: the 128 bits of `_v`. -/
structure Int64x64 where
  v : BitVec 128
  deriving Repr, DecidableEq

namespace Int64x64

/-! ## Masks and constructors -/

def HP128_MASK_HI_BIT : BitVec 128 := 1#128 <<< 127

def HP_MASK_LO : BitVec 64 := 0xffffffffffffffff#64

def HP_MASK_HI : BitVec 64 := ~~~HP_MASK_LO

def ofInt64 (v : BitVec 64) : Int64x64 := ⟨v.signExtend 128 <<< 64⟩

def ofHiLo (hi lo : BitVec 64) : Int64x64 := ⟨hi.signExtend 128 <<< 64 ||| lo.setWidth 128⟩

/-- `GetHigh` -/
def GetHigh (x : Int64x64) : BitVec 64 := (x.v.sshiftRight 64).setWidth 64

/-- `GetInt`: truncation toward zero. -/
def GetInt (x : Int64x64) : BitVec 64 :=
  let negative := x.v.slt 0
  let value := magnitude x.v
  let retval := (value >>> 64).setWidth 64
  withSign negative retval

/-- `Round`: halfway cases go away from zero. -/
def Round (x : Int64x64) : BitVec 64 :=
  let negative := x.v.slt 0
  let value := magnitude x.v
  let half := ofHiLo 0 (1#64 <<< 63)
  let retval := GetHigh ⟨value + half.v⟩
  withSign negative retval

def output_sign (sa sb : BitVec 128) : Bool × BitVec 128 × BitVec 128 :=
  let negA := sa.slt 0
  let negB := sb.slt 0
  ((negA && !negB) || (!negA && negB), magnitude sa, magnitude sb)

/-- `Umul`: `none` when `NS_ABORT_MSG_IF` ends the program. -/
def Umul (a b : BitVec 128) : Option (BitVec 128) :=
  let aL := a &&& HP_MASK_LO.setWidth 128
  let bL := b &&& HP_MASK_LO.setWidth 128
  let aH := (a >>> 64) &&& HP_MASK_LO.setWidth 128
  let bH := (b >>> 64) &&& HP_MASK_LO.setWidth 128
  let loPart := aL * bL
  let midPart := aL * bH + aH * bL
  let hiPart := aH * bH
  if hiPart &&& HP_MASK_HI.setWidth 128 ≠ 0 then none
  else
    let result := (loPart >>> 64) + (midPart &&& HP_MASK_LO.setWidth 128)
    let res1 := ((midPart >>> 64) + (hiPart &&& HP_MASK_LO.setWidth 128)) <<< 64
    some (result + res1)

/-- `operator *=` -/
def Mul (x o : Int64x64) : Option Int64x64 :=
  let (negative, a, b) := output_sign x.v o.v
  (Umul a b).map fun result => ⟨withSign negative result⟩

/-! ## Lost bits

Next to its value, a computation lists the operations whose exact result does not fit in 128 bits. -/

/-- An operation whose exact result does not fit. -/
inductive Lost where
  | remainderBit
  | resultBit
  | carry
  | product
  | negation
  deriving Repr, DecidableEq

/-- A value, and what was lost on the way to it. -/
structure Traced (α : Type) where
  val : α
  lost : List Lost
  deriving Repr, DecidableEq

/-- `x << n` drops a set bit. -/
def shlLost (what : Lost) (x : BitVec 128) (n : ℕ) : List Lost := if (x <<< n) >>> n = x then [] else [what]

def addLost (x y : BitVec 128) : List Lost := if x.uaddOverflow y then [.carry] else []

def mulLost (x y : BitVec 128) : List Lost := if x.umulOverflow y then [.product] else []

/-! ## Quotients -/

def DIGITS : ℕ := 64

structure UdivState where
  result : BitVec 128
  rem : BitVec 128
  den : BitVec 128
  /-- Number of digits already there -/
  digis : ℕ
  /-- Number of digits of this round -/
  shift : ℕ
  lost : List Lost

/-- One more digit, from the divisor. -/
def UdivState.shiftDen (s : UdivState) : UdivState := { s with shift := s.shift + 1, den := s.den >>> 1 }

/-- One more digit, from the remainder. -/
def UdivState.shiftRem (s : UdivState) : UdivState :=
  { s with shift := s.shift + 1, rem := s.rem <<< 1, lost := s.lost ++ shlLost .remainderBit s.rem 1 }

def UdivState.trailingZero (s : UdivState) : Bool := decide (s.shift < DIGITS) && decide (s.den &&& 1 = 0)

def UdivState.leadingZero (s : UdivState) : Bool :=
  decide (s.digis + s.shift < DIGITS) && decide (s.rem &&& HP128_MASK_HI_BIT = 0)

/-- More digits are needed, and the lowest bit of the divisor is zero or the remainder is less than it. -/
def UdivState.castable (s : UdivState) : Bool :=
  decide (s.digis + s.shift < DIGITS) && (decide (s.den &&& 1 = 0) || decide (s.rem < s.den))

def skipTrailingZeros : UdivState → Option UdivState :=
  whileLoop UdivState.trailingZero (fun s => some s.shiftDen) (DIGITS + 1)

def skipLeadingZeros : UdivState → Option UdivState :=
  whileLoop UdivState.leadingZero (fun s => some s.shiftRem) (DIGITS + 1)

def castOff : UdivState → Option UdivState :=
  whileLoop UdivState.castable (fun s => some s.shiftDen) (DIGITS + 1)

def UdivState.addQuotient (s : UdivState) : UdivState :=
  let quo := s.rem / s.den
  { s with
    result := (s.result <<< s.shift) + quo
    rem := s.rem % s.den
    digis := s.digis + s.shift
    shift := 0
    lost := s.lost ++ shlLost .resultBit s.result s.shift ++ addLost (s.result <<< s.shift) quo }

def udivRound (s : UdivState) : Option UdivState :=
  (skipLeadingZeros s).bind fun s => (castOff s).map UdivState.addQuotient

def UdivState.unfinished (s : UdivState) : Bool := decide (s.digis < DIGITS) && decide (s.rem ≠ 0)

def udivLoop : UdivState → Option UdivState := whileLoop UdivState.unfinished udivRound (DIGITS + 1)

/-- `Udiv`: `none` when a loop takes more than `DIGITS` rounds. -/
def Udiv (a b : BitVec 128) : Option (Traced (BitVec 128)) :=
  ((skipTrailingZeros ⟨a / b, a % b, b, 0, 0, []⟩).bind udivLoop).map fun (s : UdivState) =>
    if s.digis < DIGITS then
      ⟨s.result <<< (DIGITS - s.digis), s.lost ++ shlLost .resultBit s.result (DIGITS - s.digis)⟩
    else ⟨s.result, s.lost⟩

/-- `operator /=` -/
def Div (x o : Int64x64) : Option Int64x64 :=
  let (negative, a, b) := output_sign x.v o.v
  (Udiv a b).map fun result => ⟨withSign negative result.val⟩

/-- `UmulByInvert` -/
def UmulByInvert (a b : BitVec 128) : Traced (BitVec 128) :=
  let ah := a >>> 64
  let bh := b >>> 64
  let al := a &&& HP_MASK_LO.setWidth 128
  let bl := b &&& HP_MASK_LO.setWidth 128
  let hi := ah * bh
  let mid := ah * bl + al * bh
  let mid' := mid >>> 64
  ⟨hi + mid', mulLost ah bh ++ mulLost ah bl ++ mulLost al bh ++ addLost (ah * bl) (al * bh) ++ addLost hi mid'⟩

/-- `MulByInvert` -/
def MulByInvert (x o : Int64x64) : Traced Int64x64 :=
  let negResult := x.v.slt 0
  let a := magnitude x.v
  let result := UmulByInvert a o.v
  ⟨⟨withSign negResult result.val⟩,
    (if negResult && x.v.negOverflow then [.negation] else []) ++ result.lost⟩

def Invert (v : BitVec 64) : Option (Traced Int64x64) :=
  let a := 1#128 <<< 64
  (Udiv a (v.setWidth 128)).map fun result =>
    let tmp := (ofHiLo v 0).MulByInvert ⟨result.val⟩
    if tmp.val.GetHigh ≠ 1 then
      ⟨⟨result.val + 1⟩, result.lost ++ tmp.lost ++ if result.val.saddOverflow 1 then [.carry] else []⟩
    else ⟨⟨result.val⟩, result.lost ++ tmp.lost⟩

/-! ## Words -/

theorem toNat_and_lo (x : BitVec 128) : (x &&& HP_MASK_LO.setWidth 128).toNat = x.toNat % 2 ^ 64 := by
  rw [BitVec.toNat_and]
  exact Nat.and_two_pow_sub_one_eq_mod _ 64

theorem toNat_hi (x : BitVec 128) : (x >>> 64).toNat = x.toNat / 2 ^ 64 := by
  rw [BitVec.toNat_ushiftRight, Nat.shiftRight_eq_div_pow]

theorem and_HP_MASK_HI (x : BitVec 128) : x &&& HP_MASK_HI.setWidth 128 = 0 := by
  have hmask : HP_MASK_HI.setWidth 128 = 0 := by decide
  rw [hmask]
  exact BitVec.and_zero

theorem mul_div_eq_pieces (a b : ℕ) :
    a * b / 2 ^ 64 = a / 2 ^ 64 * (b / 2 ^ 64) * 2 ^ 64 + (a % 2 ^ 64 * (b / 2 ^ 64) + a / 2 ^ 64 * (b % 2 ^ 64)) +
      a % 2 ^ 64 * (b % 2 ^ 64) / 2 ^ 64 := by
  have hpieces : a * b = 2 ^ 64 * (a / 2 ^ 64 * (b / 2 ^ 64) * 2 ^ 64 + (a % 2 ^ 64 * (b / 2 ^ 64) + a / 2 ^ 64 * (b % 2 ^ 64))) +
      a % 2 ^ 64 * (b % 2 ^ 64) := by
    conv_lhs => rw [← Nat.div_add_mod a (2 ^ 64), ← Nat.div_add_mod b (2 ^ 64)]
    ring
  conv_lhs => rw [hpieces]
  rw [Nat.mul_add_div (by decide)]

theorem Umul_spec {a b : BitVec 128} (ha : 2 * a.toNat ≤ 2 ^ 128) (hb : 2 * b.toNat ≤ 2 ^ 128) :
    ∃ r, Umul a b = some r ∧ r.toNat = a.toNat * b.toNat / 2 ^ 64 % 2 ^ 128 := by
  refine ⟨_, if_neg (not_not.mpr (and_HP_MASK_HI _)), ?_⟩
  rw [mul_div_eq_pieces]
  have haH' : a.toNat / 2 ^ 64 % 2 ^ 64 = a.toNat / 2 ^ 64 := by omega
  have hbH' : b.toNat / 2 ^ 64 % 2 ^ 64 = b.toNat / 2 ^ 64 := by omega
  simp only [BitVec.toNat_add, BitVec.toNat_mul, BitVec.toNat_shiftLeft, toNat_and_lo, toNat_hi, haH', hbH', Nat.shiftLeft_eq]
  have haL : a.toNat % 2 ^ 64 ≤ 2 ^ 64 - 1 := by omega
  have hbL : b.toNat % 2 ^ 64 ≤ 2 ^ 64 - 1 := by omega
  have haH : a.toNat / 2 ^ 64 ≤ 2 ^ 63 := by omega
  have hbH : b.toNat / 2 ^ 64 ≤ 2 ^ 63 := by omega
  have hlo := Nat.mul_le_mul haL hbL
  have hmid := Nat.mul_le_mul haL hbH
  have hmid' := Nat.mul_le_mul haH hbL
  have hhi := Nat.mul_le_mul haH hbH
  generalize a.toNat % 2 ^ 64 * (b.toNat % 2 ^ 64) = lo at *
  generalize a.toNat % 2 ^ 64 * (b.toNat / 2 ^ 64) = mid at *
  generalize a.toNat / 2 ^ 64 * (b.toNat % 2 ^ 64) = mid' at *
  generalize a.toNat / 2 ^ 64 * (b.toNat / 2 ^ 64) = hi at *
  omega

/-! ## Nothing lost -/

theorem shlLost_eq_nil (what : Lost) {x : BitVec 128} {n : ℕ} (h : x.toNat * 2 ^ n < 2 ^ 128) : shlLost what x n = [] := by
  refine if_pos (BitVec.eq_of_toNat_eq ?_)
  rw [BitVec.toNat_ushiftRight, BitVec.toNat_shiftLeft, Nat.shiftLeft_eq, Nat.mod_eq_of_lt h, Nat.shiftRight_eq_div_pow,
    Nat.mul_div_cancel _ (Nat.two_pow_pos n)]

theorem addLost_eq_nil {x y : BitVec 128} (h : x.toNat + y.toNat < 2 ^ 128) : addLost x y = [] := by
  unfold addLost BitVec.uaddOverflow
  simp only [ge_iff_le, decide_eq_true_eq]
  exact if_neg (not_le.mpr h)

theorem mulLost_eq_nil {x y : BitVec 128} (h : x.toNat * y.toNat < 2 ^ 128) : mulLost x y = [] := by
  unfold mulLost BitVec.umulOverflow
  simp only [ge_iff_le, decide_eq_true_eq]
  exact if_neg (not_le.mpr h)

/-- What `UmulByInvert` computes for an integer `a`: nothing is lost. -/
theorem UmulByInvert_spec {a : BitVec 128} (b : BitVec 128) {n : ℕ} (ha : a.toNat = n * 2 ^ 64) (hn : n ≤ 2 ^ 63) :
    (UmulByInvert a b).val.toNat = n * b.toNat / 2 ^ 64 ∧ (UmulByInvert a b).lost = [] := by
  have hb := b.isLt
  have hah : a.toNat / 2 ^ 64 = n := by omega
  have hal : a.toNat % 2 ^ 64 = 0 := by omega
  have hbl : b.toNat % 2 ^ 64 ≤ 2 ^ 64 - 1 := by omega
  have hbh : b.toNat / 2 ^ 64 ≤ 2 ^ 64 - 1 := by omega
  have hhi := Nat.mul_le_mul hn hbh
  have hmid := Nat.mul_le_mul hn hbl
  have hval : n * b.toNat / 2 ^ 64 = n * (b.toNat / 2 ^ 64) + n * (b.toNat % 2 ^ 64) / 2 ^ 64 := by
    conv_lhs => rw [← Nat.div_add_mod b.toNat (2 ^ 64), Nat.mul_add, Nat.mul_left_comm]
    rw [Nat.mul_add_div (by decide)]
  have hhi' : ((a >>> 64) * (b >>> 64)).toNat = n * (b.toNat / 2 ^ 64) := by
    rw [BitVec.toNat_mul, toNat_hi, toNat_hi, hah, Nat.mod_eq_of_lt (by omega)]
  have hmid' : ((a >>> 64) * (b &&& HP_MASK_LO.setWidth 128)).toNat = n * (b.toNat % 2 ^ 64) := by
    rw [BitVec.toNat_mul, toNat_hi, toNat_and_lo, hah, Nat.mod_eq_of_lt (by omega)]
  have hlow : ((a &&& HP_MASK_LO.setWidth 128) * (b >>> 64)).toNat = 0 := by
    rw [BitVec.toNat_mul, toNat_and_lo, hal, Nat.zero_mul, Nat.zero_mod]
  have hsum : ((a >>> 64) * (b &&& HP_MASK_LO.setWidth 128) + (a &&& HP_MASK_LO.setWidth 128) * (b >>> 64)).toNat =
      n * (b.toNat % 2 ^ 64) := by
    rw [BitVec.toNat_add, hmid', hlow, Nat.mod_eq_of_lt (by omega), Nat.add_zero]
  constructor
  · rw [hval]
    unfold UmulByInvert
    rw [BitVec.toNat_add, hhi', toNat_hi, hsum]
    omega
  · unfold UmulByInvert
    dsimp only
    rw [mulLost_eq_nil (by rw [toNat_hi, toNat_hi, hah]; omega),
      mulLost_eq_nil (by rw [toNat_hi, toNat_and_lo, hah]; omega),
      mulLost_eq_nil (by rw [toNat_and_lo, hal]; omega), addLost_eq_nil (by rw [hmid', hlow]; omega),
      addLost_eq_nil (by rw [hhi', toNat_hi, hsum]; omega)]
    rfl

/-! ## Signed operands -/

/-- The value of a Q64.64 number times `2^64`. -/
def toInt (x : Int64x64) : ℤ := x.v.toInt

theorem eq_of_toInt_eq {x y : Int64x64} (h : x.toInt = y.toInt) : x = y := by
  cases x
  cases y
  exact congrArg Int64x64.mk (BitVec.eq_of_toInt_eq h)

def signOf (x y : ℤ) : Bool := (decide (x < 0) && !decide (y < 0)) || (!decide (x < 0) && decide (y < 0))

/-- A quotient truncated toward zero has the quotient of the magnitudes and the sign of `output_sign`. -/
theorem tdiv_eq_sign (x y : ℤ) :
    x.tdiv y = if signOf x y then -((x.natAbs / y.natAbs : ℕ) : ℤ) else (x.natAbs / y.natAbs : ℕ) := by
  unfold signOf
  rcases le_or_gt 0 x with hx | hx <;> rcases le_or_gt 0 y with hy | hy
  · have hxn : x = x.natAbs := by omega
    have hyn : y = y.natAbs := by omega
    rw [if_neg (by simp [hx, hy])]
    conv_lhs => rw [hxn, hyn]
    rfl
  · have hxn : x = x.natAbs := by omega
    have hyn : y = -y.natAbs := by omega
    rw [if_pos (by simp [hx, hy])]
    conv_lhs => rw [hxn, hyn, Int.tdiv_neg]
    rfl
  · have hxn : x = -x.natAbs := by omega
    have hyn : y = y.natAbs := by omega
    rw [if_pos (by simp [hx, hy])]
    conv_lhs => rw [hxn, hyn, Int.neg_tdiv]
    rfl
  · have hxn : x = -x.natAbs := by omega
    have hyn : y = -y.natAbs := by omega
    rw [if_neg (by simp [hx, hy])]
    conv_lhs => rw [hxn, hyn, Int.tdiv_neg, Int.neg_tdiv, neg_neg]
    rfl

theorem slt_zero_eq (x : Int64x64) : x.v.slt 0 = decide (x.toInt < 0) := by
  rw [Bool.eq_iff_iff, slt_zero_iff, decide_eq_true_eq]
  rfl

theorem magnitude_le (x : Int64x64) : (magnitude x.v).toNat ≤ 2 ^ 127 := by
  have h := two_mul_magnitude_le x.v
  omega

/-- A value that `_v` can hold. -/
def Representable (z : ℤ) : Prop := -2 ^ 127 ≤ z ∧ z < 2 ^ 127

instance (z : ℤ) : Decidable (Representable z) := inferInstanceAs (Decidable (_ ∧ _))

theorem natAbs_quotient_lt {x y : ℤ} (h : Representable (x.tdiv y)) :
    x.natAbs / y.natAbs < 2 ^ 127 ∨ signOf x y = true ∧ x.natAbs / y.natAbs = 2 ^ 127 := by
  obtain ⟨hlo, hhi⟩ := h
  rw [tdiv_eq_sign] at hlo hhi
  cases hsign : signOf x y with
  | true =>
    rw [hsign, if_pos rfl] at hlo
    have hle : x.natAbs / y.natAbs ≤ 2 ^ 127 := by omega
    exact hle.lt_or_eq.imp_right fun h => ⟨rfl, h⟩
  | false =>
    rw [hsign, if_neg Bool.false_ne_true] at hhi
    exact .inl (by omega)

theorem natAbs_quotient_le {x y : ℤ} (h : Representable (x.tdiv y)) : x.natAbs / y.natAbs ≤ 2 ^ 127 :=
  (natAbs_quotient_lt h).elim le_of_lt fun h => h.2.le

theorem toInt_withSign_quotient {x y : ℤ} {negative : Bool} {r : BitVec 128} (hsign : negative = signOf x y)
    (hr : r.toNat = x.natAbs / y.natAbs) (h : Representable (x.tdiv y)) : (withSign negative r).toInt = x.tdiv y := by
  rw [tdiv_eq_sign, ← hsign, ← hr]
  apply toInt_withSign
  rw [hr, hsign]
  exact (natAbs_quotient_lt h).imp (fun h => by omega) fun h => ⟨h.1, by omega⟩

/-- What `operator *=` computes. -/
theorem Mul_spec (x o : Int64x64) :
    ∃ r, x.Mul o = some r ∧ (Representable ((x.toInt * o.toInt).tdiv (2 ^ 64)) → r.toInt = (x.toInt * o.toInt).tdiv (2 ^ 64)) := by
  have hx : (magnitude x.v).toNat = x.toInt.natAbs := toNat_magnitude x.v
  have ho : (magnitude o.v).toNat = o.toInt.natAbs := toNat_magnitude o.v
  obtain ⟨r, hrun, hr⟩ := Umul_spec (two_mul_magnitude_le x.v) (two_mul_magnitude_le o.v)
  rw [hx, ho, ← Int.natAbs_mul] at hr
  refine ⟨⟨withSign (output_sign x.v o.v).1 r⟩, ?_, fun hfits => ?_⟩
  · simp only [Mul, output_sign, hrun, Option.map_some]
  · have hle : (x.toInt * o.toInt).natAbs / 2 ^ 64 ≤ 2 ^ 127 := natAbs_quotient_le hfits
    rw [Nat.mod_eq_of_lt (by omega)] at hr
    by_cases hzero : x.toInt * o.toInt = 0
    · -- the sign of zero does not matter
      have hr0 : r = 0 := BitVec.eq_of_toNat_eq (by rw [hr, hzero]; rfl)
      have hneg : ∀ b, (withSign b (0 : BitVec 128)).toInt = 0 := by decide
      rw [hzero, Int.zero_tdiv, hr0]
      exact hneg _
    · refine toInt_withSign_quotient ?_ hr hfits
      have hx0 : x.toInt ≠ 0 := left_ne_zero_of_mul hzero
      have ho0 : o.toInt ≠ 0 := right_ne_zero_of_mul hzero
      have hpos : decide ((2 : ℤ) ^ 64 < 0) = false := by decide
      simp only [output_sign, slt_zero_eq, signOf, hpos, Bool.not_false, Bool.and_true, Bool.and_false, Bool.or_false]
      rw [Bool.eq_iff_iff]
      simp only [Bool.or_eq_true, Bool.and_eq_true, Bool.not_eq_true', decide_eq_true_eq, decide_eq_false_iff_not, not_lt]
      rw [mul_neg_iff]
      omega

end Int64x64

end Ns3Ndn
