import Ns3Ndn.Core.Int64x64Invert

/-!
# Time units

A `Time` counts units of the resolution. `SetResolution` computes for each other unit the factor between them, and whether to multiply or to divide
by it in each direction.

* **`from_to`**: what one direction loses, the rounding of the other one restores.
-/

namespace Ns3Ndn

open SignMagnitudeLib ReciprocalLib

/-- `Time::Unit` -/
inductive TimeUnit where
  | Y
  | D
  | H
  | MIN
  | S
  | MS
  | US
  | NS
  | PS
  | FS
  deriving Repr, DecidableEq

namespace TimeUnit

/-- Scaling exponent, relative to smallest unit. -/
def UNIT_POWER : TimeUnit → ℤ
  | Y => 17
  | D => 17
  | H => 17
  | MIN => 16
  | S => 15
  | MS => 12
  | US => 9
  | NS => 6
  | PS => 3
  | FS => 0

def UNIT_COEFF : TimeUnit → ℕ
  | Y => 315360
  | D => 864
  | H => 36
  | MIN => 6
  | _ => 1

def shift (unit i : TimeUnit) : ℤ := i.UNIT_POWER - unit.UNIT_POWER

def quotient (unit i : TimeUnit) : ℕ :=
  if unit.UNIT_COEFF < i.UNIT_COEFF then i.UNIT_COEFF / unit.UNIT_COEFF
  else if i.UNIT_COEFF < unit.UNIT_COEFF then unit.UNIT_COEFF / i.UNIT_COEFF
  else 1

theorem quotient_mul (unit i : TimeUnit) :
    quotient unit i * min unit.UNIT_COEFF i.UNIT_COEFF = max unit.UNIT_COEFF i.UNIT_COEFF := by
  cases unit <;> cases i <;> rfl

/-- `factor`, before the conversion to `int64_t` -/
def factor (unit i : TimeUnit) : ℕ := 10 ^ (shift unit i).natAbs * quotient unit i

/-- `realFactor` -/
def realFactor (unit i : TimeUnit) : ℚ := 10 ^ shift unit i * i.UNIT_COEFF / unit.UNIT_COEFF

theorem UNIT_COEFF_pos (unit : TimeUnit) : 0 < unit.UNIT_COEFF := by
  cases unit <;> decide

theorem quotient_pos (unit i : TimeUnit) : 0 < quotient unit i := by
  have hmax : 0 < max unit.UNIT_COEFF i.UNIT_COEFF := lt_max_of_lt_left unit.UNIT_COEFF_pos
  rw [← quotient_mul] at hmax
  exact Nat.pos_of_mul_pos_right hmax

theorem one_lt_factor {unit i : TimeUnit} (h : ¬ (shift unit i = 0 ∧ quotient unit i = 1)) : 1 < factor unit i := by
  have hquotient := quotient_pos unit i
  unfold factor
  by_cases hshift : shift unit i = 0
  · rw [hshift, Int.natAbs_zero, pow_zero, Nat.one_mul]
    have hne : quotient unit i ≠ 1 := fun h1 => h ⟨hshift, h1⟩
    omega
  · calc 1 < 10 ^ (shift unit i).natAbs := Nat.one_lt_pow (Int.natAbs_ne_zero.mpr hshift) (by decide)
      _ ≤ 10 ^ (shift unit i).natAbs * quotient unit i := Nat.le_mul_of_pos_right _ hquotient

end TimeUnit

open TimeUnit

namespace Time

/-- How to convert between other units and the current unit. -/
structure Information where
  toMul : Bool
  fromMul : Bool
  factor : BitVec 64
  timeTo : Int64x64
  timeFrom : Int64x64
  deriving Repr, DecidableEq

/-- `SetResolution`, for the unit `i`. A factor that does not fit in an `int64_t` has no conversion in the source. -/
def SetResolution (unit i : TimeUnit) : Option Information :=
  let factor := BitVec.ofNat 64 (factor unit i)
  if shift unit i = 0 ∧ quotient unit i = 1 then
    some { timeFrom := .ofInt64 1, timeTo := .ofInt64 1, toMul := true, fromMul := true, factor }
  else if 1 < realFactor unit i then
    (Int64x64.Invert factor).map fun inv =>
      { timeFrom := .ofInt64 factor, timeTo := inv.val, toMul := false, fromMul := true, factor }
  else
    (Int64x64.Invert factor).map fun inv =>
      { timeFrom := inv.val, timeTo := .ofInt64 factor, toMul := true, fromMul := false, factor }

def To (data : BitVec 64) (info : Information) : Option Int64x64 :=
  let retval := Int64x64.ofInt64 data
  if info.toMul then retval.Mul info.timeTo else some (retval.MulByInvert info.timeTo).val

/-- `From`: the constructor of `Time` rounds. -/
def From (value : Int64x64) (info : Information) : Option (BitVec 64) :=
  (if info.fromMul then value.Mul info.timeFrom else some (value.MulByInvert info.timeFrom).val).map Int64x64.Round

/-- `ToInteger` -/
def ToInteger (data : BitVec 64) (info : Information) : BitVec 64 :=
  if info.toMul then data * info.factor else data.sdiv info.factor

theorem Round_eq {x : Int64x64} {data : BitVec 64} (hmin : data ≠ BitVec.intMin 64) (hsign : x.toInt < 0 ↔ data.toInt < 0)
    (hlo : data.toInt.natAbs * 2 ^ 64 ≤ x.toInt.natAbs + 2 ^ 63)
    (hhi : x.toInt.natAbs + 2 ^ 63 < data.toInt.natAbs * 2 ^ 64 + 2 ^ 64) : x.Round = data := by
  have habs : data.toInt.natAbs < 2 ^ 63 := natAbs_toInt_lt hmin
  have hmag : (magnitude x.v).toNat = x.toInt.natAbs := toNat_magnitude x.v
  have hhalf : (Int64x64.ofHiLo 0 (1#64 <<< 63)).v.toNat = 2 ^ 63 := by decide
  have hsum : (magnitude x.v + (Int64x64.ofHiLo 0 (1#64 <<< 63)).v).toNat = x.toInt.natAbs + 2 ^ 63 := by
    rw [BitVec.toNat_add, hmag, hhalf, Nat.mod_eq_of_lt (by omega)]
  have hget := Int64x64.toInt_GetHigh ⟨magnitude x.v + (Int64x64.ofHiLo 0 (1#64 <<< 63)).v⟩
  have hsum' : (magnitude x.v + (Int64x64.ofHiLo 0 (1#64 <<< 63)).v).toInt = (x.toInt.natAbs + 2 ^ 63 : ℕ) := by
    rw [BitVec.toInt_eq_toNat_of_lt (by omega), hsum]
  unfold Int64x64.toInt at hget
  rw [hsum'] at hget
  have hdiv : (((x.toInt.natAbs + 2 ^ 63 : ℕ) : ℤ) / 2 ^ 64) = data.toInt.natAbs := by omega
  rw [hdiv] at hget
  have hnat : (Int64x64.GetHigh ⟨magnitude x.v + (Int64x64.ofHiLo 0 (1#64 <<< 63)).v⟩).toNat = data.toInt.natAbs := by
    have hcond := BitVec.toInt_eq_toNat_cond (Int64x64.GetHigh ⟨magnitude x.v + (Int64x64.ofHiLo 0 (1#64 <<< 63)).v⟩)
    split_ifs at hcond <;> omega
  apply BitVec.eq_of_toInt_eq
  unfold Int64x64.Round
  dsimp only
  rw [toInt_withSign (.inl (by omega)), hnat, Int64x64.slt_zero_eq]
  split_ifs with hneg
  · rw [decide_eq_true_eq, hsign] at hneg
    omega
  · rw [decide_eq_true_eq, hsign] at hneg
    omega

/-! ## Conversions -/

variable {data f : BitVec 64} {inv : Int64x64}

theorem toInt_factor (hf : f.toNat < 2 ^ 63) : f.toInt = f.toNat := BitVec.toInt_eq_toNat_of_lt (by omega)

theorem Mul_ofInt64 (hlo : -2 ^ 63 ≤ data.toInt * f.toInt) (hhi : data.toInt * f.toInt < 2 ^ 63) :
    (Int64x64.ofInt64 data).Mul (.ofInt64 f) = some (.ofInt64 (data * f)) := by
  obtain ⟨r, hrun, hr⟩ := Int64x64.Mul_spec (.ofInt64 data) (.ofInt64 f)
  have hprod : (data * f).toInt = data.toInt * f.toInt := by
    rw [BitVec.toInt_mul]
    exact Int.bmod_eq_of_le (by omega) (by omega)
  have hdiv : (data.toInt * 2 ^ 64 * (f.toInt * 2 ^ 64)).tdiv (2 ^ 64) = data.toInt * f.toInt * 2 ^ 64 := by
    rw [← mul_assoc, Int.mul_tdiv_cancel _ (by decide)]
    ring
  rw [Int64x64.toInt_ofInt64, Int64x64.toInt_ofInt64, hdiv] at hr
  rw [hrun]
  have heq : r.toInt = (Int64x64.ofInt64 (data * f)).toInt := by
    rw [Int64x64.toInt_ofInt64, hprod]
    exact hr ⟨by omega, by omega⟩
  exact congrArg some (Int64x64.eq_of_toInt_eq heq)

/-- **From a finer unit**: the product with the reciprocal gives the time back. -/
theorem Round_MulByInvert (hmin : data ≠ BitVec.intMin 64) (hf : f.toNat < 2 ^ 63) (hpos : 0 < f.toNat)
    (hinv : Reciprocal (2 ^ 64 * 2 ^ 64) f.toNat f.toNat inv.v.toNat)
    (hlo : -2 ^ 63 ≤ data.toInt * f.toInt) (hhi : data.toInt * f.toInt < 2 ^ 63) :
    ((Int64x64.ofInt64 (data * f)).MulByInvert inv).val.Round = data := by
  have habs : data.toInt.natAbs < 2 ^ 63 := natAbs_toInt_lt hmin
  have hprod : (data * f).toInt = data.toInt * f.toInt := by
    rw [BitVec.toInt_mul]
    exact Int.bmod_eq_of_le (by omega) (by omega)
  have hnat : (data * f).toInt.natAbs = data.toInt.natAbs * f.toNat := by
    rw [hprod, Int.natAbs_mul, toInt_factor hf, Int.natAbs_natCast]
  have hge := hinv.multiple_ge (by decide) data.toInt.natAbs
  have hle := hinv.multiple_le (by decide) data.toInt.natAbs
  have herr : data.toInt.natAbs * f.toNat ≤ 2 ^ 63 * 2 ^ 63 := Nat.mul_le_mul habs.le hf.le
  have hfits : (data * f).toInt.natAbs * inv.v.toNat / 2 ^ 64 < 2 ^ 127 := by
    rw [hnat]
    omega
  have hval := Int64x64.toInt_MulByInvert hfits
  rw [hnat] at hval
  have hsign : (data * f).toInt < 0 ↔ data.toInt < 0 := by
    rw [hprod, toInt_factor hf, mul_neg_iff]
    omega
  simp only [hsign] at hval
  apply Round_eq hmin
  · rw [hval]
    split_ifs with hneg <;> omega
  · rw [hval]
    split_ifs <;> omega
  · rw [hval]
    split_ifs <;> omega

/-- **From a coarser unit**: the rounding restores what the fraction lost. -/
theorem Round_Mul (hmin : data ≠ BitVec.intMin 64) (hf : f.toNat < 2 ^ 63) (hpos : 0 < f.toNat)
    (hinv : Reciprocal (2 ^ 64 * 2 ^ 64) f.toNat f.toNat inv.v.toNat) (hmax : inv.v.toNat ≤ 2 ^ 127) :
    (((Int64x64.ofInt64 data).MulByInvert inv).val.Mul (.ofInt64 f)).map Int64x64.Round = some data := by
  have habs : data.toInt.natAbs < 2 ^ 63 := natAbs_toInt_lt hmin
  have hle := hinv.fraction_le (by decide) data.toInt.natAbs
  have hlt := hinv.lt_fraction (by decide) hpos data.toInt.natAbs
  have herr : data.toInt.natAbs * f.toNat ≤ 2 ^ 63 * 2 ^ 63 := Nat.mul_le_mul habs.le hf.le
  have hfits : data.toInt.natAbs * inv.v.toNat / 2 ^ 64 < 2 ^ 127 :=
    (Nat.div_le_div_right (Nat.mul_le_mul habs.le hmax)).trans_lt (by decide)
  have hval := Int64x64.toInt_MulByInvert hfits
  generalize data.toInt.natAbs * inv.v.toNat / 2 ^ 64 = ρ at *
  obtain ⟨r, hrun, hr⟩ := Int64x64.Mul_spec ((Int64x64.ofInt64 data).MulByInvert inv).val (.ofInt64 f)
  have hdiv : (((Int64x64.ofInt64 data).MulByInvert inv).val.toInt * (f.toInt * 2 ^ 64)).tdiv (2 ^ 64) =
      if data.toInt < 0 then -((ρ * f.toNat : ℕ) : ℤ) else (ρ * f.toNat : ℕ) := by
    rw [← mul_assoc, Int.mul_tdiv_cancel _ (by decide), hval, toInt_factor hf]
    split_ifs
    · push_cast
      ring
    · push_cast
      rfl
  rw [Int64x64.toInt_ofInt64, hdiv] at hr
  have hr := hr (by unfold Int64x64.Representable; split_ifs <;> omega)
  rw [hrun, Option.map_some]
  refine congrArg some (Round_eq hmin ?_ ?_ ?_)
  · rw [hr]
    split_ifs <;> omega
  · rw [hr]
    split_ifs <;> omega
  · rw [hr]
    split_ifs <;> omega

theorem GetInt_ofInt64 (n : BitVec 64) : (Int64x64.ofInt64 n).GetInt = n := by
  apply BitVec.eq_of_toInt_eq
  rw [Int64x64.toInt_GetInt, Int64x64.toInt_ofInt64, Int.mul_tdiv_cancel _ (by decide)]

theorem GetInt_eq_sdiv (hmin : data ≠ BitVec.intMin 64) (hf : f.toNat < 2 ^ 63) (hpos : 0 < f.toNat)
    (hinv : Reciprocal (2 ^ 64 * 2 ^ 64) f.toNat f.toNat inv.v.toNat) (hmax : inv.v.toNat ≤ 2 ^ 127) :
    ((Int64x64.ofInt64 data).MulByInvert inv).val.GetInt = data.sdiv f := by
  have habs : data.toInt.natAbs < 2 ^ 63 := natAbs_toInt_lt hmin
  have hle : (data.toInt.tdiv f.toNat).natAbs ≤ data.toInt.natAbs := by
    rw [Int.natAbs_tdiv]
    exact Nat.div_le_self _ _
  apply BitVec.eq_of_toInt_eq
  rw [Int64x64.toInt_GetInt_MulByInvert hpos hinv hmax hmin, BitVec.toInt_sdiv, toInt_factor hf]
  exact (Int.bmod_eq_of_le (by omega) (by omega)).symm

/-- What there is to know of a conversion: one direction multiplies by the factor and the other one by its reciprocal, and both multiply by one
for the resolution itself. -/
inductive Information.Valid (info : Information) : Prop where
  | same (hf : info.factor = 1) (hto : info.toMul = true ∧ info.timeTo = .ofInt64 1) (hfrom : info.fromMul = true ∧ info.timeFrom = .ofInt64 1)
  | coarser (hto : info.toMul = false) (hfrom : info.fromMul = true ∧ info.timeFrom = .ofInt64 info.factor) (hpos : 0 < info.factor.toNat)
      (hmax : info.timeTo.v.toNat ≤ 2 ^ 127)
      (hinv : Reciprocal (2 ^ 64 * 2 ^ 64) info.factor.toNat info.factor.toNat info.timeTo.v.toNat)
  | finer (hto : info.toMul = true ∧ info.timeTo = .ofInt64 info.factor) (hfrom : info.fromMul = false) (hpos : 0 < info.factor.toNat)
      (hinv : Reciprocal (2 ^ 64 * 2 ^ 64) info.factor.toNat info.factor.toNat info.timeFrom.v.toNat)

theorem SetResolution_spec {unit i : TimeUnit} (hfactor : factor unit i < 2 ^ 63) :
    ∃ info, SetResolution unit i = some info ∧ info.factor.toNat = factor unit i ∧ info.Valid := by
  have hf : (BitVec.ofNat 64 (factor unit i)).toNat = factor unit i := by
    rw [BitVec.toNat_ofNat]
    omega
  unfold SetResolution
  by_cases hsame : shift unit i = 0 ∧ quotient unit i = 1
  · have hone : factor unit i = 1 := by
      unfold factor
      rw [hsame.1, hsame.2]
      rfl
    rw [if_pos hsame]
    exact ⟨_, rfl, hf, .same (congrArg (BitVec.ofNat 64) hone) ⟨rfl, rfl⟩ ⟨rfl, rfl⟩⟩
  · have hlt := one_lt_factor hsame
    obtain ⟨inv, hrun, hinv, hmax, -⟩ := Int64x64.Invert_spec (hf.symm ▸ hlt)
    rw [if_neg hsame, hrun, Option.map_some, Option.map_some]
    split_ifs
    · exact ⟨_, rfl, hf, .coarser rfl ⟨rfl, rfl⟩ (by dsimp only; omega) hmax hinv⟩
    · exact ⟨_, rfl, hf, .finer ⟨rfl, rfl⟩ rfl (by dsimp only; omega) hinv⟩

/-- **A time survives its conversion to any unit**, and its integer part is the integer conversion. -/
theorem from_to {unit i : TimeUnit} (hfactor : factor unit i < 2 ^ 63) {data : BitVec 64} (hmin : data ≠ BitVec.intMin 64) :
    ∃ info, SetResolution unit i = some info ∧
      ((info.toMul = true → -2 ^ 63 ≤ data.toInt * factor unit i ∧ data.toInt * factor unit i < 2 ^ 63) →
        ∃ value, To data info = some value ∧ From value info = some data ∧ value.GetInt = ToInteger data info) := by
  obtain ⟨info, hrun, hf, hvalid⟩ := SetResolution_spec hfactor
  have hf63 : info.factor.toNat < 2 ^ 63 := hf ▸ hfactor
  refine ⟨info, hrun, fun hfits => ?_⟩
  rw [← hf, ← toInt_factor hf63] at hfits
  unfold To From ToInteger
  cases hvalid with
  | same hone hto hfrom =>
    have hbound := hfits hto.1
    have hmul : data * 1 = data := BitVec.mul_one data
    rw [hone] at hbound
    refine ⟨.ofInt64 data, ?_, ?_, ?_⟩
    · rw [if_pos hto.1, hto.2, Mul_ofInt64 hbound.1 hbound.2, hmul]
    · rw [if_pos hfrom.1, hfrom.2, Mul_ofInt64 hbound.1 hbound.2, hmul, Option.map_some]
      have hvalue := Int64x64.toInt_ofInt64 data
      exact congrArg some (Round_eq hmin (by rw [hvalue]; omega) (by rw [hvalue]; omega) (by rw [hvalue]; omega))
    · rw [if_pos hto.1, hone, hmul, GetInt_ofInt64]
  | coarser hto hfrom hpos hmax hinv =>
    have hto' : ¬ info.toMul = true := by simp [hto]
    refine ⟨_, if_neg hto', ?_, ?_⟩
    · rw [if_pos hfrom.1, hfrom.2]
      exact Round_Mul hmin hf63 hpos hinv hmax
    · rw [if_neg hto']
      exact GetInt_eq_sdiv hmin hf63 hpos hinv hmax
  | finer hto hfrom hpos hinv =>
    have hfrom' : ¬ info.fromMul = true := by simp [hfrom]
    have hbound := hfits hto.1
    refine ⟨.ofInt64 (data * info.factor), ?_, ?_, ?_⟩
    · rw [if_pos hto.1, hto.2]
      exact Mul_ofInt64 hbound.1 hbound.2
    · rw [if_neg hfrom', Option.map_some]
      exact congrArg some (Round_MulByInvert hmin hf63 hpos hinv hbound.1 hbound.2)
    · rw [if_pos hto.1]
      exact GetInt_ofInt64 _

/-- A second and a half, in nanoseconds, as seconds. -/
theorem from_to_seconds : ∃ info, SetResolution .NS .S = some info ∧
    ((info.toMul = true → -2 ^ 63 ≤ (1500000000 : BitVec 64).toInt * factor .NS .S ∧
        (1500000000 : BitVec 64).toInt * factor .NS .S < 2 ^ 63) →
      ∃ value, To 1500000000 info = some value ∧ From value info = some 1500000000 ∧ value.GetInt = ToInteger 1500000000 info) :=
  from_to (by decide) (by decide)

end Time

end Ns3Ndn
