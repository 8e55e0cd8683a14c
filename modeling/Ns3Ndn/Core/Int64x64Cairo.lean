import Ns3Ndn.Core.Int64x64

/-!
# Products in two implementations

The implementation on 64-bit words multiplies with the functions of `cairo-wideint.c`. It aborts when the upper word of the upper partial product is
not zero. The native implementation takes a mask for this test that is zero.

* **`exactOrAborts_iff`**: the products that the native implementation gets right.
-/

namespace Ns3Ndn.Int64x64

open SignMagnitudeLib

namespace Cairo

structure Uint128 where
  lo : BitVec 64
  hi : BitVec 64
  deriving Repr, DecidableEq

def Uint128.ofBits (v : BitVec 128) : Uint128 := ⟨v.setWidth 64, (v >>> 64).setWidth 64⟩

def Uint128.toNat (x : Uint128) : ℕ := x.hi.toNat * 2 ^ 64 + x.lo.toNat

def cairo_uint64_to_uint128 (i : BitVec 64) : Uint128 := ⟨i, 0⟩

def cairo_uint32x32_64_mul (a b : BitVec 32) : BitVec 64 := a.setWidth 64 * b.setWidth 64

def cairo_uint64x64_128_mul (a b : BitVec 64) : Uint128 :=
  let al := (a &&& 0xffffffff).setWidth 32
  let ah := (a >>> 32).setWidth 32
  let bl := (b &&& 0xffffffff).setWidth 32
  let bh := (b >>> 32).setWidth 32
  let r0 := cairo_uint32x32_64_mul al bl
  let r1 := cairo_uint32x32_64_mul al bh
  let r2 := cairo_uint32x32_64_mul ah bl
  let r3 := cairo_uint32x32_64_mul ah bh
  let r1 := r1 + (r0 >>> 32)
  let r1 := r1 + r2
  let r3 := if r1 < r2 then r3 + (1#64 <<< 32) else r3
  ⟨(r1 <<< 32) + (r0 &&& 0xffffffff), r3 + (r1 >>> 32)⟩

def cairo_uint128_add (a b : Uint128) : Uint128 :=
  let hi := a.hi + b.hi
  let lo := a.lo + b.lo
  ⟨lo, if lo < a.lo then hi + 1 else hi⟩

def cairo_uint128_lsl (a : Uint128) (shift : ℕ) : Uint128 :=
  let (a, shift) : Uint128 × ℕ := if 64 ≤ shift then (⟨0, a.lo⟩, shift - 64) else (a, shift)
  if shift ≠ 0 then ⟨a.lo <<< shift, (a.hi <<< shift) + (a.lo >>> (64 - shift))⟩ else a

def cairo_uint128_negate (a : Uint128) : Uint128 := cairo_uint128_add ⟨~~~a.lo, ~~~a.hi⟩ ⟨1, 0⟩

def cairo_int128_negative (a : Uint128) : Bool := a.hi.slt 0

def output_sign (sa sb : Uint128) : Bool × Uint128 × Uint128 :=
  let negA := cairo_int128_negative sa
  let negB := cairo_int128_negative sb
  ((negA && !negB) || (!negA && negB), if negA then cairo_uint128_negate sa else sa, if negB then cairo_uint128_negate sb else sb)

/-- `Umul`: `none` when `NS_ABORT_MSG_IF` ends the program. -/
def Umul (a b : Uint128) : Option Uint128 :=
  let loPart := cairo_uint64x64_128_mul a.lo b.lo
  let midPart := cairo_uint128_add (cairo_uint64x64_128_mul a.lo b.hi) (cairo_uint64x64_128_mul a.hi b.lo)
  let hiPart := cairo_uint64x64_128_mul a.hi b.hi
  if hiPart.hi ≠ 0 then none
  else
    let result := cairo_uint128_add (cairo_uint64_to_uint128 loPart.hi) (cairo_uint64_to_uint128 midPart.lo)
    let res1 := cairo_uint128_add (cairo_uint64_to_uint128 midPart.hi) (cairo_uint64_to_uint128 hiPart.lo)
    some (cairo_uint128_add result (cairo_uint128_lsl res1 64))

/-- `operator *=` -/
def Mul (x o : Uint128) : Option Uint128 :=
  let (sign, a, b) := output_sign x o
  (Umul a b).map fun result => if sign then cairo_uint128_negate result else result

/-! ## Words -/

variable {a b : Uint128}

theorem Uint128.eq_of_toNat_eq (h : a.toNat = b.toNat) : a = b := by
  have ha := a.lo.isLt
  have hb := b.lo.isLt
  unfold toNat at h
  have hlo : a.lo = b.lo := BitVec.eq_of_toNat_eq (by omega)
  have hhi : a.hi = b.hi := BitVec.eq_of_toNat_eq (by omega)
  cases a
  cases b
  exact congr (congrArg Uint128.mk hlo) hhi

theorem Uint128.toNat_ofBits (v : BitVec 128) : (ofBits v).toNat = v.toNat := by
  have hv := v.isLt
  unfold ofBits toNat
  rw [BitVec.toNat_setWidth, BitVec.toNat_setWidth, toNat_hi]
  omega

theorem toNat_to_uint128 (i : BitVec 64) : (cairo_uint64_to_uint128 i).toNat = i.toNat := by
  unfold cairo_uint64_to_uint128 Uint128.toNat
  simp

theorem toNat_add (a b : Uint128) : (cairo_uint128_add a b).toNat = (a.toNat + b.toNat) % 2 ^ 128 := by
  have halo := a.lo.isLt
  have hahi := a.hi.isLt
  have hblo := b.lo.isLt
  have hbhi := b.hi.isLt
  unfold cairo_uint128_add Uint128.toNat
  dsimp only
  split_ifs with hcarry
  · rw [BitVec.lt_def, BitVec.toNat_add] at hcarry
    rw [BitVec.toNat_add, BitVec.toNat_add, BitVec.toNat_add, show (1 : BitVec 64).toNat = 1 from rfl]
    omega
  · rw [BitVec.lt_def, BitVec.toNat_add] at hcarry
    rw [BitVec.toNat_add, BitVec.toNat_add]
    omega

theorem toNat_lsl_64 (a : Uint128) : (cairo_uint128_lsl a 64).toNat = a.toNat * 2 ^ 64 % 2 ^ 128 := by
  have hlo := a.lo.isLt
  have hlsl : cairo_uint128_lsl a 64 = ⟨0, a.lo⟩ := rfl
  rw [hlsl]
  unfold Uint128.toNat
  simp only [BitVec.ofNat_eq_ofNat, BitVec.toNat_ofNat]
  omega

theorem toNat_negate (a : Uint128) : (cairo_uint128_negate a).toNat = (2 ^ 128 - a.toNat) % 2 ^ 128 := by
  have hlo := a.lo.isLt
  have hhi := a.hi.isLt
  unfold cairo_uint128_negate
  rw [toNat_add]
  unfold Uint128.toNat
  simp only [BitVec.toNat_not, BitVec.ofNat_eq_ofNat, BitVec.toNat_ofNat]
  omega

theorem toNat_mul_32 (a b : BitVec 32) : (cairo_uint32x32_64_mul a b).toNat = a.toNat * b.toNat := by
  have ha := a.isLt
  have hb := b.isLt
  have hle : a.toNat * b.toNat ≤ (2 ^ 32 - 1) * (2 ^ 32 - 1) := Nat.mul_le_mul (by omega) (by omega)
  unfold cairo_uint32x32_64_mul
  rw [BitVec.toNat_mul, BitVec.toNat_setWidth_of_le (by decide), BitVec.toNat_setWidth_of_le (by decide), Nat.mod_eq_of_lt (by omega)]

theorem toNat_lo32 (a : BitVec 64) : ((a &&& 0xffffffff).setWidth 32).toNat = a.toNat % 2 ^ 32 := by
  have hand : (a &&& 0xffffffff).toNat = a.toNat % 2 ^ 32 := Nat.and_two_pow_sub_one_eq_mod _ 32
  rw [BitVec.toNat_setWidth, hand, Nat.mod_mod]

theorem toNat_hi32 (a : BitVec 64) : ((a >>> 32).setWidth 32).toNat = a.toNat / 2 ^ 32 := by
  have ha := a.isLt
  rw [BitVec.toNat_setWidth, BitVec.toNat_ushiftRight, Nat.shiftRight_eq_div_pow]
  omega

/-- The words of a product, from the products of the halves and the carry of the middle ones. -/
theorem mul_words {r0 r1 r2 r3 mid c : ℕ} (hr0 : r0 < 2 ^ 64) (hr1 : r1 ≤ (2 ^ 32 - 1) * (2 ^ 32 - 1))
    (hr2 : r2 ≤ (2 ^ 32 - 1) * (2 ^ 32 - 1)) (hr3 : r3 ≤ (2 ^ 32 - 1) * (2 ^ 32 - 1)) (hmid : mid + c * 2 ^ 64 = r1 + r0 / 2 ^ 32 + r2) :
    (r3 + c * 2 ^ 32 + mid / 2 ^ 32) % 2 ^ 64 * 2 ^ 64 + (mid * 2 ^ 32 % 2 ^ 64 + r0 % 2 ^ 32) % 2 ^ 64 =
      r3 * 2 ^ 64 + (r1 + r2) * 2 ^ 32 + r0 := by
  have hdiv : c * 2 ^ 32 + mid / 2 ^ 32 = (r1 + r0 / 2 ^ 32 + r2) / 2 ^ 32 := by omega
  have hmod : mid * 2 ^ 32 % 2 ^ 64 = (r1 + r0 / 2 ^ 32 + r2) % 2 ^ 32 * 2 ^ 32 := by
    rw [← hmid, show (2 : ℕ) ^ 64 = 2 ^ 32 * 2 ^ 32 from rfl, Nat.mul_mod_mul_right, ← Nat.mul_assoc, Nat.add_mul_mod_self_right]
  rw [Nat.add_assoc, hdiv, hmod]
  clear hmid hdiv hmod
  have h0 := Nat.div_add_mod r0 (2 ^ 32)
  have h0' := Nat.mod_lt r0 (by decide : 0 < 2 ^ 32)
  generalize r0 / 2 ^ 32 = q0 at *
  generalize r0 % 2 ^ 32 = m0 at *
  have ht := Nat.div_add_mod (r1 + q0 + r2) (2 ^ 32)
  have ht' := Nat.mod_lt (r1 + q0 + r2) (by decide : 0 < 2 ^ 32)
  generalize (r1 + q0 + r2) / 2 ^ 32 = q at *
  generalize (r1 + q0 + r2) % 2 ^ 32 = m at *
  rw [Nat.mod_eq_of_lt (by omega), Nat.mod_eq_of_lt (by omega)]
  omega

theorem toNat_mul (a b : BitVec 64) : (cairo_uint64x64_128_mul a b).toNat = a.toNat * b.toNat := by
  have ha := a.isLt
  have hb := b.isLt
  have hal : a.toNat % 2 ^ 32 ≤ 2 ^ 32 - 1 := by omega
  have hah : a.toNat / 2 ^ 32 ≤ 2 ^ 32 - 1 := by omega
  have hbl : b.toNat % 2 ^ 32 ≤ 2 ^ 32 - 1 := by omega
  have hbh : b.toNat / 2 ^ 32 ≤ 2 ^ 32 - 1 := by omega
  have hpieces : a.toNat * b.toNat = a.toNat / 2 ^ 32 * (b.toNat / 2 ^ 32) * 2 ^ 64 +
      (a.toNat % 2 ^ 32 * (b.toNat / 2 ^ 32) + a.toNat / 2 ^ 32 * (b.toNat % 2 ^ 32)) * 2 ^ 32 +
      a.toNat % 2 ^ 32 * (b.toNat % 2 ^ 32) := by
    conv_lhs => rw [← Nat.div_add_mod a.toNat (2 ^ 32), ← Nat.div_add_mod b.toNat (2 ^ 32)]
    ring
  have hr0 := Nat.mul_le_mul hal hbl
  have hr1 := Nat.mul_le_mul hal hbh
  have hr2 := Nat.mul_le_mul hah hbl
  have hr3 := Nat.mul_le_mul hah hbh
  rw [hpieces]
  unfold cairo_uint64x64_128_mul Uint128.toNat
  dsimp only
  have h0 := toNat_mul_32 ((a &&& 0xffffffff).setWidth 32) ((b &&& 0xffffffff).setWidth 32)
  have h1 := toNat_mul_32 ((a &&& 0xffffffff).setWidth 32) ((b >>> 32).setWidth 32)
  have h2 := toNat_mul_32 ((a >>> 32).setWidth 32) ((b &&& 0xffffffff).setWidth 32)
  have h3 := toNat_mul_32 ((a >>> 32).setWidth 32) ((b >>> 32).setWidth 32)
  rw [toNat_lo32, toNat_lo32] at h0
  rw [toNat_lo32, toNat_hi32] at h1
  rw [toNat_hi32, toNat_lo32] at h2
  rw [toNat_hi32, toNat_hi32] at h3
  generalize cairo_uint32x32_64_mul _ _ = r0 at h0 ⊢
  generalize cairo_uint32x32_64_mul _ _ = r1 at h1 ⊢
  generalize cairo_uint32x32_64_mul _ _ = r2 at h2 ⊢
  generalize cairo_uint32x32_64_mul _ _ = r3 at h3 ⊢
  rw [← h0] at hr0 ⊢
  rw [← h1] at hr1 ⊢
  rw [← h2] at hr2 ⊢
  rw [← h3] at hr3 ⊢
  -- the sum of the middle products can carry into the upper one
  have hmid : (r1 + r0 >>> 32 + r2).toNat = (r1.toNat + r0.toNat / 2 ^ 32 + r2.toNat) % 2 ^ 64 := by
    rw [BitVec.toNat_add, BitVec.toNat_add, BitVec.toNat_ushiftRight, Nat.shiftRight_eq_div_pow, Nat.mod_add_mod]
  have hlow : (r0 &&& 0xffffffff).toNat = r0.toNat % 2 ^ 32 := Nat.and_two_pow_sub_one_eq_mod _ 32
  have hone : (1#64 <<< 32).toNat = 2 ^ 32 := by decide
  generalize r1 + r0 >>> 32 + r2 = mid at hmid ⊢
  rw [BitVec.toNat_add, BitVec.toNat_add, BitVec.toNat_shiftLeft, BitVec.toNat_ushiftRight, Nat.shiftRight_eq_div_pow,
    Nat.shiftLeft_eq, hlow]
  clear h0 h1 h2 h3 hlow hpieces hal hah hbl hbh ha hb
  have hr0' := r0.isLt
  split_ifs with hcarry
  · rw [BitVec.lt_def] at hcarry
    have hsum : mid.toNat + 1 * 2 ^ 64 = r1.toNat + r0.toNat / 2 ^ 32 + r2.toNat := by omega
    rw [BitVec.toNat_add, hone, Nat.mod_add_mod]
    simpa only [Nat.one_mul] using mul_words hr0' hr1 hr2 hr3 hsum
  · rw [BitVec.lt_def] at hcarry
    have hsum : mid.toNat + 0 * 2 ^ 64 = r1.toNat + r0.toNat / 2 ^ 32 + r2.toNat := by omega
    simpa only [Nat.zero_mul, Nat.add_zero] using mul_words hr0' hr1 hr2 hr3 hsum

/-! ## Products -/

/-- What `Umul` computes. It aborts for the upper word of the upper partial product. -/
theorem Umul_spec (ha : a.toNat ≤ 2 ^ 127) (hb : b.toNat ≤ 2 ^ 127) :
    (Umul a b = none ↔ 2 ^ 64 ≤ a.toNat / 2 ^ 64 * (b.toNat / 2 ^ 64)) ∧
      ∀ r, Umul a b = some r → r.toNat = a.toNat * b.toNat / 2 ^ 64 % 2 ^ 128 := by
  have halo := a.lo.isLt
  have hblo := b.lo.isLt
  have hahi : a.toNat / 2 ^ 64 = a.hi.toNat := by unfold Uint128.toNat; omega
  have hbhi : b.toNat / 2 ^ 64 = b.hi.toNat := by unfold Uint128.toNat; omega
  have halo' : a.toNat % 2 ^ 64 = a.lo.toNat := by unfold Uint128.toNat; omega
  have hblo' : b.toNat % 2 ^ 64 = b.lo.toNat := by unfold Uint128.toNat; omega
  have hmid := Nat.mul_le_mul (show a.lo.toNat ≤ 2 ^ 64 - 1 by omega) (show b.hi.toNat ≤ 2 ^ 63 by omega)
  have hmid' := Nat.mul_le_mul (show a.hi.toNat ≤ 2 ^ 63 by omega) (show b.lo.toNat ≤ 2 ^ 64 - 1 by omega)
  rw [mul_div_eq_pieces, hahi, hbhi, halo', hblo', Umul]
  dsimp only
  have hlo := toNat_mul a.lo b.lo
  have hsum := toNat_add (cairo_uint64x64_128_mul a.lo b.hi) (cairo_uint64x64_128_mul a.hi b.lo)
  have hhi := toNat_mul a.hi b.hi
  rw [toNat_mul, toNat_mul, Nat.mod_eq_of_lt (by omega)] at hsum
  rw [← hlo, ← hsum, ← hhi]
  generalize cairo_uint64x64_128_mul a.lo b.lo = loPart
  generalize cairo_uint128_add (cairo_uint64x64_128_mul a.lo b.hi) (cairo_uint64x64_128_mul a.hi b.lo) = midPart
  generalize cairo_uint64x64_128_mul a.hi b.hi = hiPart
  have hlo64 := loPart.lo.isLt
  have hhi64 := hiPart.lo.isLt
  have hzero : hiPart.hi = 0 ↔ hiPart.hi.toNat = 0 := BitVec.toNat_inj.symm
  constructor
  · split_ifs with hne
    · rw [Ne, hzero] at hne
      refine iff_of_true rfl ?_
      unfold Uint128.toNat
      omega
    · rw [not_not, hzero] at hne
      refine iff_of_false not_false ?_
      unfold Uint128.toNat
      omega
  · intro r hr
    split_ifs at hr with hne
    obtain rfl := Option.some_inj.mp hr
    rw [toNat_add, toNat_add, toNat_lsl_64, toNat_add, toNat_to_uint128, toNat_to_uint128, toNat_to_uint128, toNat_to_uint128]
    unfold Uint128.toNat
    omega

theorem negate_ofBits (v : BitVec 128) : cairo_uint128_negate (.ofBits v) = Uint128.ofBits (-v) := by
  apply Uint128.eq_of_toNat_eq
  rw [toNat_negate, Uint128.toNat_ofBits, Uint128.toNat_ofBits, BitVec.toNat_neg]

theorem negative_ofBits (v : BitVec 128) : cairo_int128_negative (.ofBits v) = v.slt 0 := by
  have hv := v.isLt
  rw [Bool.eq_iff_iff]
  unfold cairo_int128_negative Uint128.ofBits
  dsimp only
  rw [slt_zero_iff, slt_zero_iff, BitVec.toInt_eq_toNat_cond, BitVec.toInt_eq_toNat_cond, BitVec.toNat_setWidth, toNat_hi]
  split_ifs <;> omega

theorem output_sign_ofBits (sa sb : BitVec 128) :
    output_sign (.ofBits sa) (.ofBits sb) =
      ((Int64x64.output_sign sa sb).1, .ofBits (magnitude sa), .ofBits (magnitude sb)) := by
  unfold output_sign Int64x64.output_sign magnitude
  simp only [negative_ofBits, negate_ofBits, ← apply_ite Uint128.ofBits]

/-- **Both implementations have the same product**, unless the one on words aborts. -/
theorem Mul_eq (x o : Int64x64) :
    (Mul (.ofBits x.v) (.ofBits o.v) = none ↔ 2 ^ 64 ≤ x.toInt.natAbs / 2 ^ 64 * (o.toInt.natAbs / 2 ^ 64)) ∧
      (Mul (.ofBits x.v) (.ofBits o.v) ≠ none → Mul (.ofBits x.v) (.ofBits o.v) = (x.Mul o).map fun r => .ofBits r.v) := by
  have hx : (Uint128.ofBits (magnitude x.v)).toNat = x.toInt.natAbs := (Uint128.toNat_ofBits _).trans (toNat_magnitude x.v)
  have ho : (Uint128.ofBits (magnitude o.v)).toNat = o.toInt.natAbs := (Uint128.toNat_ofBits _).trans (toNat_magnitude o.v)
  have hx127 := x.magnitude_le
  have ho127 := o.magnitude_le
  obtain ⟨habort, hval⟩ := Umul_spec (a := .ofBits (magnitude x.v)) (b := .ofBits (magnitude o.v))
    (by rwa [Uint128.toNat_ofBits]) (by rwa [Uint128.toNat_ofBits])
  obtain ⟨r, hrun, hr⟩ := Int64x64.Umul_spec (a := magnitude x.v) (b := magnitude o.v) (by omega) (by omega)
  rw [hx, ho] at habort
  simp only [Mul, Int64x64.Mul, output_sign_ofBits]
  refine ⟨Option.map_eq_none_iff.trans habort, fun hne => ?_⟩
  cases hrun' : Umul (.ofBits (magnitude x.v)) (.ofBits (magnitude o.v)) with
  | none => exact absurd (congrArg _ hrun') hne
  | some r' =>
    have heq : r' = .ofBits r := by
      apply Uint128.eq_of_toNat_eq
      rw [hval r' hrun', Uint128.toNat_ofBits, Uint128.toNat_ofBits, Uint128.toNat_ofBits, hr]
    simp only [Int64x64.output_sign, hrun, Option.map_some, heq, withSign, negate_ofBits, ← apply_ite Uint128.ofBits]
    rfl

end Cairo

/-- The product of two numbers is exact, or the program aborts because its integer part does not fit; and the other implementation does the
same. -/
def ExactOrAborts (x o : Int64x64) : Prop :=
  (x.Mul o = none ↔ 2 ^ 63 ≤ x.toInt.natAbs * o.toInt.natAbs / 2 ^ 128) ∧
    (∀ r, x.Mul o = some r → r.toInt = (x.toInt * o.toInt).tdiv (2 ^ 64)) ∧
    Cairo.Mul (.ofBits x.v) (.ofBits o.v) = (x.Mul o).map fun r => .ofBits r.v

/-- **The product is right if and only if its integer part fits.** -/
theorem exactOrAborts_iff (x o : Int64x64) : ExactOrAborts x o ↔ x.toInt.natAbs * o.toInt.natAbs / 2 ^ 128 < 2 ^ 63 := by
  obtain ⟨r, hrun, hr⟩ := Mul_spec x o
  constructor
  · -- there is no abort
    rintro ⟨habort, -⟩
    rw [hrun] at habort
    by_contra hlarge
    exact Option.some_ne_none r (habort.mpr (by omega))
  · intro hfits
    have habs : (x.toInt * o.toInt).natAbs / 2 ^ 64 < 2 ^ 127 := by
      rw [Int.natAbs_mul]
      omega
    have htdiv : ((x.toInt * o.toInt).tdiv (2 ^ 64)).natAbs = (x.toInt * o.toInt).natAbs / 2 ^ 64 := Int.natAbs_tdiv _ _
    obtain ⟨habort, hcairo⟩ := Cairo.Mul_eq x o
    -- the upper partial product is no more than the integer part
    have hhi : x.toInt.natAbs / 2 ^ 64 * (o.toInt.natAbs / 2 ^ 64) ≤ x.toInt.natAbs * o.toInt.natAbs / 2 ^ 128 := by
      have h := mul_div_eq_pieces x.toInt.natAbs o.toInt.natAbs
      omega
    refine ⟨?_, ?_, hcairo fun h => ?_⟩
    · rw [hrun]
      exact iff_of_false (Option.some_ne_none r) (by omega)
    · intro r' hrun'
      obtain rfl := Option.some_inj.mp (hrun.symm.trans hrun')
      exact hr ⟨by omega, by omega⟩
    · have := habort.mp h
      omega

/-- `2^32 * 2^32` -/
theorem not_exactOrAborts_two_pow : ¬ ExactOrAborts (ofInt64 (2 ^ 32)) (ofInt64 (2 ^ 32)) := by
  rintro ⟨habort, -⟩
  exact absurd (habort.mpr (by decide)) (by decide)

end Ns3Ndn.Int64x64
