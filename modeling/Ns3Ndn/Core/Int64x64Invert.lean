import Ns3Ndn.Core.Int64x64Div
import Ns3Ndn.Lib.Reciprocal

/-!
# Division by an integer

`Invert` rounds the reciprocal of a divisor down and corrects it after a test on the divisor itself. The test converts the divisor to a signed
number.

* `Invert_spec`: the reciprocal is rounded up, for each divisor;
* **`dividesExactly_iff`**: which divisors do without an overflow.
-/

namespace Ns3Ndn.Int64x64

open SignMagnitudeLib ReciprocalLib

/-! ## Integers -/

theorem toInt_ofInt64 (n : BitVec 64) : (ofInt64 n).toInt = n.toInt * 2 ^ 64 := by
  have hle := BitVec.le_toInt n
  have hlt := BitVec.toInt_lt (x := n)
  have hext : (n.signExtend 128).toInt = n.toInt := BitVec.toInt_signExtend_of_le (by decide)
  have hcond := BitVec.toInt_eq_toNat_cond (n.signExtend 128)
  have hbound := (n.signExtend 128).isLt
  unfold toInt ofInt64
  rw [BitVec.toInt_shiftLeft, Nat.shiftLeft_eq, Int.bmod_def]
  split_ifs at hcond ⊢ <;> omega

theorem ofHiLo_zero (n : BitVec 64) : ofHiLo n 0 = ofInt64 n := by
  unfold ofHiLo ofInt64
  exact congrArg _ BitVec.or_zero

theorem toInt_GetHigh (x : Int64x64) : x.GetHigh.toInt = x.toInt / 2 ^ 64 := by
  have hle := BitVec.le_toInt x.v
  have hlt := BitVec.toInt_lt (x := x.v)
  have hshift : (x.v.sshiftRight 64).toInt = x.v.toInt / 2 ^ 64 := by
    rw [BitVec.toInt_sshiftRight, Int.shiftRight_eq_div_pow]
    rfl
  have hcond := BitVec.toInt_eq_toNat_cond (x.v.sshiftRight 64)
  have hbound := (x.v.sshiftRight 64).isLt
  unfold toInt GetHigh
  rw [BitVec.toInt_setWidth, ← hshift, Int.bmod_def]
  split_ifs at hcond ⊢ <;> omega

/-- `GetInt` truncates toward zero. -/
theorem toInt_GetInt (x : Int64x64) : x.GetInt.toInt = x.toInt.tdiv (2 ^ 64) := by
  have hle := x.magnitude_le
  have hmag : (magnitude x.v).toNat = x.toInt.natAbs := toNat_magnitude x.v
  have hvalue : ((magnitude x.v >>> 64).setWidth 64).toNat = x.toInt.natAbs / 2 ^ 64 := by
    rw [BitVec.toNat_setWidth, toNat_hi, hmag]
    omega
  have hlow := BitVec.le_toInt x.v
  have hhigh := BitVec.toInt_lt (x := x.v)
  have hdiv := tdiv_eq_sign x.toInt (2 ^ 64)
  have hnonneg : decide ((2 : ℤ) ^ 64 < 0) = false := by decide
  have habs : ((2 : ℤ) ^ 64).natAbs = 2 ^ 64 := by decide
  simp only [signOf, hnonneg, Bool.not_false, Bool.and_true, Bool.and_false, Bool.or_false, ← slt_zero_eq, habs] at hdiv
  unfold GetInt
  rw [toInt_withSign, hvalue, hdiv]
  cases hneg : x.v.slt 0 with
  | true => exact (le_or_gt (2 ^ 63) (x.toInt.natAbs / 2 ^ 64)).symm.imp (fun h => by omega) fun h => ⟨rfl, by omega⟩
  | false =>
    have hpos := (slt_zero_eq x).symm.trans hneg
    rw [decide_eq_false_iff_not] at hpos
    unfold toInt at hvalue hpos
    exact .inl (by omega)

theorem MulByInvert_spec (n : BitVec 64) (o : Int64x64) :
    ((ofInt64 n).MulByInvert o).val = ⟨withSign (n.slt 0) (UmulByInvert (magnitude (ofInt64 n).v) o.v).val⟩ ∧
      (UmulByInvert (magnitude (ofInt64 n).v) o.v).val.toNat = n.toInt.natAbs * o.v.toNat / 2 ^ 64 ∧
      ((ofInt64 n).MulByInvert o).lost = if n = BitVec.intMin 64 then [.negation] else [] := by
  have hmag : (magnitude (ofInt64 n).v).toNat = n.toInt.natAbs * 2 ^ 64 := by
    rw [toNat_magnitude]
    change (ofInt64 n).toInt.natAbs = _
    rw [toInt_ofInt64, Int.natAbs_mul]
    rfl
  have hle := (ofInt64 n).magnitude_le
  have hsign : (ofInt64 n).v.slt 0 = n.slt 0 := by
    rw [slt_zero_eq, toInt_ofInt64, Bool.eq_iff_iff, slt_zero_iff, decide_eq_true_eq]
    omega
  obtain ⟨hval, hlost⟩ := UmulByInvert_spec o.v hmag (by omega)
  refine ⟨?_, hval, ?_⟩
  · rw [MulByInvert, hsign]
  · have hmin : ((ofInt64 n).v.slt 0 && (ofInt64 n).v.negOverflow) = decide (n = BitVec.intMin 64) := by
      rw [Bool.eq_iff_iff, Bool.and_eq_true, slt_zero_iff, BitVec.negOverflow, decide_eq_true_eq, beq_iff_eq,
        ← BitVec.toInt_inj]
      change (ofInt64 n).toInt < 0 ∧ (ofInt64 n).toInt = -2 ^ 127 ↔ n.toInt = -2 ^ 63
      rw [toInt_ofInt64]
      omega
    rw [MulByInvert, hlost, hmin, List.append_nil]
    simp

theorem selfTest {v : BitVec 64} {q : BitVec 128} (hv : 1 < v.toNat) (hq : q.toNat = 2 ^ 128 / v.toNat) :
    (((ofHiLo v 0).MulByInvert ⟨q⟩).val.GetHigh = 1 → 2 ^ 128 ≤ q.toNat * v.toNat) ∧
      (v.toNat = 2 → ((ofHiLo v 0).MulByInvert ⟨q⟩).val.GetHigh = 1) := by
  obtain ⟨hval, hprod, -⟩ := MulByInvert_spec v ⟨q⟩
  have hone : (1 : BitVec 64).toInt = 1 := by decide
  have hv64 := v.isLt
  have hcond := BitVec.toInt_eq_toNat_cond v
  have hle : v.toNat * q.toNat ≤ 2 ^ 128 := hq ▸ Nat.mul_div_le _ _
  have hhigh := toInt_GetHigh ((ofHiLo v 0).MulByInvert ⟨q⟩).val
  rw [ofHiLo_zero, hval] at hhigh ⊢
  rw [← BitVec.toInt_inj, hone, hhigh]
  dsimp only at hprod
  generalize (UmulByInvert (magnitude (ofInt64 v).v) q).val = r at hprod ⊢
  by_cases hneg : v.slt 0 = true
  · -- a divisor from `2^63` on is read as a negative number
    have hvneg := (slt_zero_iff v).mp hneg
    have hr : r.toNat ≤ 2 ^ 64 := by
      have hv63 : 2 ^ 63 ≤ v.toNat := by split_ifs at hcond <;> omega
      have hq65 : q.toNat ≤ 2 ^ 128 / 2 ^ 63 := hq ▸ Nat.div_le_div_left hv63 (by decide)
      have habs : v.toInt.natAbs ≤ 2 ^ 63 := by split_ifs at hcond <;> omega
      rw [hprod]
      exact (Nat.div_le_div_right (Nat.mul_le_mul habs hq65)).trans (by decide)
    have hr' : (withSign (v.slt 0) r).toInt = -r.toNat := by
      rw [toInt_withSign (.inl (by omega)), hneg]
      rfl
    unfold toInt
    rw [hr']
    constructor
    · intro h
      omega
    · intro h
      rw [h] at hcond
      omega
  · have hvpos : v.toInt = v.toNat := by
      rw [slt_zero_iff] at hneg
      split_ifs at hcond <;> omega
    rw [hvpos, Int.natAbs_natCast] at hprod
    have hr' : (withSign (v.slt 0) r).toInt = r.toNat := by
      rw [toInt_withSign (.inl (by omega)), (Bool.not_eq_true _).mp hneg]
      rfl
    unfold toInt
    rw [hr', Nat.mul_comm q.toNat]
    constructor
    · intro h
      omega
    · intro h
      rw [hprod, hq, h]
      decide

/-- **What `Invert` computes**: the reciprocal, rounded up. The negation of the least number overflows in its self-test. -/
theorem Invert_spec {v : BitVec 64} (hv : 1 < v.toNat) :
    ∃ inv, Invert v = some inv ∧ Reciprocal (2 ^ 64 * 2 ^ 64) v.toNat v.toNat inv.val.v.toNat ∧ inv.val.v.toNat ≤ 2 ^ 127 ∧
      inv.lost = if v = BitVec.intMin 64 then [.negation] else [] := by
  have hv64 := v.isLt
  have hden : (v.setWidth 128).toNat = v.toNat := by
    rw [BitVec.toNat_setWidth]
    omega
  have hnum : (1#128 <<< 64).toNat = 2 ^ 64 := by decide
  obtain ⟨q, hrun, hq, -, hlost⟩ := Udiv_spec (a := 1#128 <<< 64) (b := v.setWidth 128) (by omega) (by omega)
  rw [hden, hnum] at hq hlost
  have hlt : 2 ^ 64 * 2 ^ 64 / v.toNat ≤ 2 ^ 64 * 2 ^ 64 / 2 := Nat.div_le_div_left hv (by decide)
  rw [Nat.mod_eq_of_lt (by omega)] at hq
  have hlost := hlost (by omega)
  have hfloor : q.val.toNat * v.toNat ≤ 2 ^ 64 * 2 ^ 64 := hq ▸ Nat.div_mul_le_self _ _
  have hceil : 2 ^ 64 * 2 ^ 64 < q.val.toNat * v.toNat + v.toNat := hq ▸ Nat.lt_div_mul_add (by omega)
  obtain ⟨hexact, htwo⟩ := selfTest hv hq
  obtain ⟨-, -, htest⟩ := MulByInvert_spec v ⟨q.val⟩
  rw [← ofHiLo_zero] at htest
  by_cases hhigh : ((ofHiLo v 0).MulByInvert ⟨q.val⟩).val.GetHigh = 1
  · refine ⟨⟨⟨q.val⟩, q.lost ++ ((ofHiLo v 0).MulByInvert ⟨q.val⟩).lost⟩, ?_, ⟨hexact hhigh, by dsimp only; omega⟩, ?_, ?_⟩
    · rw [Invert, hrun, Option.map_some]
      exact congrArg some (if_neg (not_not.mpr hhigh))
    · dsimp only
      omega
    · dsimp only
      rw [hlost, htest]
      rfl
  · -- the divisor is not two, so that one more is no overflow
    have hthree : 3 ≤ v.toNat := by
      by_contra hsmall
      exact hhigh (htwo (by omega))
    have hthird : 2 ^ 64 * 2 ^ 64 / v.toNat ≤ 2 ^ 64 * 2 ^ 64 / 3 := Nat.div_le_div_left hthree (by decide)
    have hsucc : (q.val + 1).toNat = q.val.toNat + 1 := by
      rw [BitVec.toNat_add, show (1 : BitVec 128).toNat = 1 from rfl, Nat.mod_eq_of_lt (by omega)]
    have hcarry : q.val.saddOverflow 1 = false := by
      have hcond := BitVec.toInt_eq_toNat_cond q.val
      have hone : (1 : BitVec 128).toInt = 1 := by decide
      rw [if_pos (by omega)] at hcond
      unfold BitVec.saddOverflow
      rw [hone, hcond]
      simp only [ge_iff_le, Bool.or_eq_false_iff, decide_eq_false_iff_not, not_le, not_lt]
      omega
    refine ⟨⟨⟨q.val + 1⟩, q.lost ++ ((ofHiLo v 0).MulByInvert ⟨q.val⟩).lost ++ []⟩, ?_, ?_, ?_, ?_⟩
    · rw [Invert, hrun, Option.map_some]
      refine congrArg some ((if_pos hhigh).trans ?_)
      rw [hcarry]
      rfl
    · dsimp only
      rw [hsucc]
      exact ⟨by rw [Nat.succ_mul]; omega, by rw [Nat.succ_mul]; omega⟩
    · dsimp only
      omega
    · dsimp only
      rw [hlost, htest, List.append_nil]
      rfl

/-! ## The quotient -/

theorem toInt_MulByInvert {n : BitVec 64} {inv : Int64x64} (h : n.toInt.natAbs * inv.v.toNat / 2 ^ 64 < 2 ^ 127) :
    ((ofInt64 n).MulByInvert inv).val.toInt =
      if n.toInt < 0 then -((n.toInt.natAbs * inv.v.toNat / 2 ^ 64 : ℕ) : ℤ) else (n.toInt.natAbs * inv.v.toNat / 2 ^ 64 : ℕ) := by
  obtain ⟨hval, hprod, -⟩ := MulByInvert_spec n inv
  rw [hval]
  unfold toInt
  rw [toInt_withSign (.inl (by omega)), hprod]
  simp only [slt_zero_iff]

/-- **The quotient of two integers**, truncated toward zero. -/
theorem toInt_GetInt_MulByInvert {v n : BitVec 64} {inv : Int64x64} (hv : 0 < v.toNat)
    (hinv : Reciprocal (2 ^ 64 * 2 ^ 64) v.toNat v.toNat inv.v.toNat) (hmax : inv.v.toNat ≤ 2 ^ 127) (hn : n ≠ BitVec.intMin 64) :
    ((ofInt64 n).MulByInvert inv).val.GetInt.toInt = n.toInt.tdiv v.toNat := by
  have hv64 := v.isLt
  have habs : n.toInt.natAbs < 2 ^ 63 := natAbs_toInt_lt hn
  have hprod : n.toInt.natAbs * inv.v.toNat / 2 ^ 64 < 2 ^ 127 :=
    (Nat.div_le_div_right (Nat.mul_le_mul habs.le hmax)).trans_lt (by decide)
  have herr : n.toInt.natAbs * v.toNat < 2 ^ 64 * 2 ^ 64 := (Nat.mul_le_mul habs.le hv64.le).trans_lt (by decide)
  have hquo := hinv.mul_div hv herr
  rw [← Nat.div_div_eq_div_mul] at hquo
  have hdiv := tdiv_eq_sign n.toInt v.toNat
  have hvpos : decide ((v.toNat : ℤ) < 0) = false := by simp
  simp only [signOf, hvpos, Bool.not_false, Bool.and_true, Bool.and_false, Bool.or_false, decide_eq_true_eq, Int.natAbs_natCast] at hdiv
  rw [toInt_GetInt, toInt_MulByInvert hprod, hdiv, ← hquo]
  split_ifs
  · rw [Int.neg_tdiv]
    rfl
  · rfl

/-- Division of `n` by `v` through its reciprocal: the quotient is the one truncated toward zero, and nothing is lost. -/
def DividesExactly (v n : BitVec 64) : Prop :=
  ∃ inv, Invert v = some inv ∧ inv.lost = [] ∧ ((ofInt64 n).MulByInvert inv.val).lost = [] ∧
    ((ofInt64 n).MulByInvert inv.val).val.GetInt.toInt = n.toInt.tdiv v.toNat

/-- **Division by an integer is exact**, and without an overflow unless the divisor is `2^63`. -/
theorem dividesExactly_iff {v n : BitVec 64} (hv : 1 < v.toNat) (hn : n ≠ BitVec.intMin 64) :
    DividesExactly v n ↔ v.toNat ≠ 2 ^ 63 := by
  obtain ⟨inv, hrun, hinv, hmax, hlost⟩ := Invert_spec hv
  have hquo := toInt_GetInt_MulByInvert (Nat.zero_lt_of_lt hv) hinv hmax hn
  obtain ⟨-, -, hlost'⟩ := MulByInvert_spec n inv.val
  have hmin : v = BitVec.intMin 64 ↔ v.toNat = 2 ^ 63 := BitVec.toNat_inj.symm
  rw [if_neg hn] at hlost'
  constructor
  · rintro ⟨inv', hrun', hnone, -⟩ hv63
    obtain rfl := Option.some_inj.mp (hrun.symm.trans hrun')
    rw [hlost, if_pos (hmin.mpr hv63)] at hnone
    exact List.cons_ne_nil _ _ hnone
  · intro hne
    rw [if_neg (fun h => hne (hmin.mp h))] at hlost
    exact ⟨inv, hrun, hlost, hlost', hquo⟩

/-- `-7 / 3` -/
theorem dividesExactly_three : DividesExactly 3 (-7) ↔ (3 : BitVec 64).toNat ≠ 2 ^ 63 :=
  dividesExactly_iff (by decide) (by decide)

/-- The divisor `2^63`. -/
theorem not_dividesExactly_two_pow : ¬ DividesExactly (BitVec.intMin 64) 1 := by
  rintro ⟨inv, hrun, hnone, -⟩
  obtain ⟨inv', hrun', -, -, hlost⟩ := Invert_spec (v := BitVec.intMin 64) (by decide)
  obtain rfl := Option.some_inj.mp (hrun.symm.trans hrun')
  rw [hlost, if_pos rfl] at hnone
  exact List.cons_ne_nil _ _ hnone

end Ns3Ndn.Int64x64
