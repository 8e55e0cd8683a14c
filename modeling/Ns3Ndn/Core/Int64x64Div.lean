import Ns3Ndn.Core.Int64x64

/-!
# Exact division

`Udiv` produces the fraction of the quotient in batches of bits. The remainder is shifted up and the divisor is shifted down, and both have to
stay exact.

* `UdivInv`: the invariant, `R` being the quotient so far without its wrap around and `den * 2^k` the divisor;
* **`div_exact`**: `operator /=`.
-/

namespace Ns3Ndn.Int64x64

open LoopLib SignMagnitudeLib

structure UdivInv (a b R k : ℕ) (s : UdivState) : Prop where
  result : s.result.toNat = R % 2 ^ 128
  value : a * 2 ^ (s.digis + s.shift) = R * 2 ^ s.shift * b + s.rem.toNat * 2 ^ k
  den : s.den.toNat * 2 ^ k = b
  digits : s.digis + s.shift ≤ DIGITS
  remKept : .remainderBit ∉ s.lost
  kept : R < 2 ^ 128 → s.lost = []

variable {a b R k : ℕ} {s : UdivState}

theorem and_one_eq_zero_iff (x : BitVec 128) : x &&& 1 = 0 ↔ x.toNat % 2 = 0 := by
  rw [← BitVec.toNat_inj, BitVec.toNat_and]
  exact Eq.congr_left (Nat.and_one_is_mod x.toNat)

theorem and_HI_BIT_eq_zero_iff (x : BitVec 128) : x &&& HP128_MASK_HI_BIT = 0 ↔ x.toNat < 2 ^ 127 := by
  have hx := x.isLt
  have hand : (x &&& HP128_MASK_HI_BIT).toNat = x.toNat &&& 2 ^ 127 := BitVec.toNat_and ..
  rw [← BitVec.toNat_inj, hand, Nat.and_two_pow, Nat.testBit_eq_decide_div_mod_eq]
  simp only [BitVec.ofNat_eq_ofNat, BitVec.toNat_ofNat, Nat.zero_mod, Nat.mul_eq_zero, Bool.toNat_eq_zero, decide_eq_false_iff_not,
    Nat.pow_eq_zero]
  omega

theorem UdivInv.shiftDen (h : UdivInv a b R k s) (heven : s.den.toNat % 2 = 0) (hroom : s.digis + s.shift < DIGITS) :
    UdivInv a b R (k + 1) s.shiftDen where
  result := h.result
  value := by
    have hv := congrArg (· * 2) h.value
    change a * 2 ^ (s.digis + s.shift + 1) = R * 2 ^ (s.shift + 1) * b + s.rem.toNat * 2 ^ (k + 1)
    rw [pow_succ, pow_succ, pow_succ, ← Nat.mul_assoc]
    exact hv.trans (by ring)
  den := by
    have hhalf : (s.den >>> 1).toNat * 2 = s.den.toNat := by
      rw [BitVec.toNat_ushiftRight, Nat.shiftRight_eq_div_pow]
      omega
    change (s.den >>> 1).toNat * 2 ^ (k + 1) = b
    rw [pow_succ, ← h.den, ← hhalf]
    ring
  digits := by
    change s.digis + (s.shift + 1) ≤ DIGITS
    omega
  remKept := h.remKept
  kept := h.kept

theorem UdivInv.shiftRem (h : UdivInv a b R k s) (hclear : s.rem.toNat < 2 ^ 127) (hroom : s.digis + s.shift < DIGITS) :
    UdivInv a b R k s.shiftRem := by
  have hlost : shlLost .remainderBit s.rem 1 = [] := shlLost_eq_nil _ (by omega)
  have hrem : (s.rem <<< 1).toNat = s.rem.toNat * 2 := by
    rw [BitVec.toNat_shiftLeft, Nat.shiftLeft_eq]
    omega
  unfold UdivState.shiftRem
  rw [hlost, List.append_nil]
  refine ⟨h.result, ?_, h.den, ?_, h.remKept, h.kept⟩
  · have hv := congrArg (· * 2) h.value
    dsimp only at hv ⊢
    rw [hrem, ← Nat.add_assoc, pow_succ, pow_succ, ← Nat.mul_assoc, hv]
    ring
  · dsimp only
    omega

theorem UdivInv.addQuotient (h : UdivInv a b R k s) : UdivInv a b (R * 2 ^ s.shift + s.rem.toNat / s.den.toNat) k s.addQuotient := by
  have hresult : (s.result <<< s.shift).toNat = R * 2 ^ s.shift % 2 ^ 128 := by
    rw [BitVec.toNat_shiftLeft, Nat.shiftLeft_eq, h.result, Nat.mod_mul_mod]
  have hquo : (s.rem / s.den).toNat = s.rem.toNat / s.den.toNat := BitVec.toNat_udiv
  refine ⟨?_, ?_, h.den, ?_, ?_, fun hfits => ?_⟩
  · change (s.result <<< s.shift + s.rem / s.den).toNat = _
    rw [BitVec.toNat_add, hresult, hquo, Nat.mod_add_mod]
  · change a * 2 ^ (s.digis + s.shift + 0) = _ * 2 ^ 0 * b + (s.rem % s.den).toNat * 2 ^ k
    have hrem : s.rem.toNat * 2 ^ k = s.rem.toNat / s.den.toNat * b + s.rem.toNat % s.den.toNat * 2 ^ k := by
      calc s.rem.toNat * 2 ^ k
          = (s.rem.toNat / s.den.toNat * s.den.toNat + s.rem.toNat % s.den.toNat) * 2 ^ k := by rw [Nat.div_add_mod']
        _ = s.rem.toNat / s.den.toNat * (s.den.toNat * 2 ^ k) + s.rem.toNat % s.den.toNat * 2 ^ k := by ring
        _ = _ := by rw [h.den]
    rw [Nat.add_zero, h.value, pow_zero, Nat.mul_one, BitVec.toNat_umod, Nat.add_mul, hrem, Nat.add_assoc]
  · exact h.digits
  · have hshl : Lost.remainderBit ∉ shlLost .resultBit s.result s.shift := by
      unfold shlLost
      split_ifs <;> simp
    have hadd : Lost.remainderBit ∉ addLost (s.result <<< s.shift) (s.rem / s.den) := by
      unfold addLost
      split_ifs <;> simp
    simp only [UdivState.addQuotient, List.mem_append, not_or]
    exact ⟨⟨h.remKept, hshl⟩, hadd⟩
  · -- nothing is lost while the exact quotient fits
    have hle : R ≤ R * 2 ^ s.shift := Nat.le_mul_of_pos_right R (Nat.two_pow_pos _)
    have hR : R % 2 ^ 128 = R := Nat.mod_eq_of_lt (by omega)
    have hR' : R * 2 ^ s.shift % 2 ^ 128 = R * 2 ^ s.shift := Nat.mod_eq_of_lt (by omega)
    have hshl : shlLost .resultBit s.result s.shift = [] := shlLost_eq_nil _ (by rw [h.result, hR]; omega)
    have hadd : addLost (s.result <<< s.shift) (s.rem / s.den) = [] := addLost_eq_nil (by rw [hresult, hR', hquo]; exact hfits)
    simp only [UdivState.addQuotient, hshl, hadd, h.kept (by omega), List.append_nil]

/-! ## The loops -/

/-- What holds at the head of a round: unless digits are pending, the remainder is less than the divisor. -/
def UdivHead (a b R k : ℕ) (s : UdivState) : Prop :=
  UdivInv a b R k s ∧ (0 < s.shift ∨ s.rem.toNat < s.den.toNat)

theorem UdivInv.den_le (h : UdivInv a b R k s) : s.den.toNat ≤ b := by
  rw [← h.den]
  exact Nat.le_mul_of_pos_right _ (Nat.two_pow_pos k)

theorem UdivInv.den_pos (h : UdivInv a b R k s) (hb : 0 < b) : 0 < s.den.toNat := by
  have hden := h.den
  exact Nat.pos_of_ne_zero fun hzero => by simp [hzero] at hden; omega

theorem skipTrailingZeros_spec (h : UdivHead a b R k s) (hdigis : s.digis = 0) :
    ∃ s', skipTrailingZeros s = some s' ∧ (∃ k, UdivHead a b R k s') ∧ s'.digis = 0 := by
  have round : ∀ t : UdivState, ((∃ k, UdivHead a b R k t) ∧ t.digis = 0) → t.trailingZero = true →
      ((∃ k, UdivHead a b R k t.shiftDen) ∧ t.shiftDen.digis = 0) ∧ DIGITS - t.shiftDen.shift < DIGITS - t.shift := by
    rintro t ⟨⟨k, hinv, -⟩, hdigis⟩ hc
    simp only [UdivState.trailingZero, Bool.and_eq_true, decide_eq_true_eq, and_one_eq_zero_iff] at hc
    refine ⟨⟨⟨k + 1, hinv.shiftDen hc.2 (by omega), .inl (Nat.succ_pos _)⟩, hdigis⟩, ?_⟩
    unfold UdivState.shiftDen
    dsimp only
    omega
  obtain ⟨s', hrun, hinv, -⟩ := whileLoop_spec_some _ (fun t : UdivState => DIGITS - t.shift) round ⟨⟨k, h⟩, hdigis⟩ (Nat.lt_succ_of_le (Nat.sub_le DIGITS s.shift))
  exact ⟨s', hrun, hinv⟩

theorem skipLeadingZeros_spec (h : UdivHead a b R k s) (hb : b ≤ 2 ^ 127) (hdigis : s.digis < DIGITS) :
    ∃ s', skipLeadingZeros s = some s' ∧ UdivInv a b R k s' ∧ s'.digis = s.digis ∧ 0 < s'.shift ∧
      (s'.digis + s'.shift < DIGITS → 2 ^ 127 ≤ s'.rem.toNat) := by
  have round : ∀ t : UdivState, (UdivHead a b R k t ∧ t.digis = s.digis) → t.leadingZero = true →
      (UdivHead a b R k t.shiftRem ∧ t.shiftRem.digis = s.digis) ∧ DIGITS - t.shiftRem.shift < DIGITS - t.shift := by
    rintro t ⟨⟨hinv, -⟩, hsame⟩ hc
    simp only [UdivState.leadingZero, Bool.and_eq_true, decide_eq_true_eq, and_HI_BIT_eq_zero_iff] at hc
    refine ⟨⟨⟨hinv.shiftRem hc.2 hc.1, .inl (Nat.succ_pos _)⟩, hsame⟩, ?_⟩
    unfold UdivState.shiftRem
    dsimp only
    omega
  obtain ⟨s', hrun, ⟨⟨hinv, hhead⟩, hsame⟩, hexit⟩ :=
    whileLoop_spec_some _ (fun t : UdivState => DIGITS - t.shift) round ⟨h, rfl⟩ (Nat.lt_succ_of_le (Nat.sub_le DIGITS s.shift))
  simp only [UdivState.leadingZero, Bool.and_eq_false_iff, decide_eq_false_iff_not, and_HI_BIT_eq_zero_iff, not_lt] at hexit
  have htop : s'.digis + s'.shift < DIGITS → 2 ^ 127 ≤ s'.rem.toNat := fun hroom => hexit.resolve_left (by omega)
  refine ⟨s', hrun, hinv, hsame, ?_, htop⟩
  -- a remainder less than the divisor has a clear upper bit, so it was shifted
  have hden := hinv.den_le
  rcases hhead with hpos | hlt
  · exact hpos
  · by_contra hzero
    have := htop (by omega)
    omega

/-- Only zero bits of the divisor are cast off: an odd divisor is no more than the remainder. -/
theorem castOff_spec (h : UdivInv a b R k s) (hb : b ≤ 2 ^ 127) (hshift : 0 < s.shift)
    (htop : s.digis + s.shift < DIGITS → 2 ^ 127 ≤ s.rem.toNat) :
    ∃ s', castOff s = some s' ∧ (∃ k, UdivInv a b R k s') ∧ s'.digis = s.digis ∧ 0 < s'.shift := by
  have round : ∀ t : UdivState, ((∃ k, UdivInv a b R k t) ∧ t.digis = s.digis ∧ 0 < t.shift ∧
        (t.digis + t.shift < DIGITS → 2 ^ 127 ≤ t.rem.toNat)) → t.castable = true →
      ((∃ k, UdivInv a b R k t.shiftDen) ∧ t.shiftDen.digis = s.digis ∧ 0 < t.shiftDen.shift ∧
        (t.shiftDen.digis + t.shiftDen.shift < DIGITS → 2 ^ 127 ≤ t.shiftDen.rem.toNat)) ∧
      DIGITS - t.shiftDen.shift < DIGITS - t.shift := by
    rintro t ⟨⟨k, hinv⟩, hsame, hpos, htop⟩ hc
    simp only [UdivState.castable, Bool.and_eq_true, Bool.or_eq_true, decide_eq_true_eq, and_one_eq_zero_iff, BitVec.lt_def] at hc
    have hden := hinv.den_le
    have hrem := htop hc.1
    have heven : t.den.toNat % 2 = 0 := by omega
    refine ⟨⟨⟨k + 1, hinv.shiftDen heven hc.1⟩, hsame, Nat.succ_pos _, fun _ => hrem⟩, ?_⟩
    unfold UdivState.shiftDen
    dsimp only
    omega
  obtain ⟨s', hrun, ⟨hinv, hsame, hpos, -⟩, -⟩ :=
    whileLoop_spec_some _ (fun t : UdivState => DIGITS - t.shift) round ⟨⟨k, h⟩, rfl, hshift, htop⟩ (Nat.lt_succ_of_le (Nat.sub_le DIGITS s.shift))
  exact ⟨s', hrun, hinv, hsame, hpos⟩

theorem udivRound_spec (h : UdivHead a b R k s) (hb : 0 < b) (hb' : b ≤ 2 ^ 127) (hdigis : s.digis < DIGITS) :
    ∃ s', udivRound s = some s' ∧ (∃ R k, UdivHead a b R k s') ∧ s.digis < s'.digis := by
  obtain ⟨s₁, hrun₁, hinv₁, hsame₁, hpos₁, htop⟩ := skipLeadingZeros_spec h hb' hdigis
  obtain ⟨s₂, hrun₂, ⟨k₂, hinv₂⟩, hsame₂, hpos₂⟩ := castOff_spec hinv₁ hb' hpos₁ htop
  refine ⟨s₂.addQuotient, ?_, ⟨_, k₂, hinv₂.addQuotient, .inr ?_⟩, ?_⟩
  · rw [udivRound, hrun₁, Option.bind_some, hrun₂, Option.map_some]
  · change (s₂.rem % s₂.den).toNat < s₂.den.toNat
    rw [BitVec.toNat_umod]
    exact Nat.mod_lt _ (hinv₂.den_pos hb)
  · change s.digis < s₂.digis + s₂.shift
    omega

theorem udivLoop_spec (h : UdivHead a b R k s) (hb : 0 < b) (hb' : b ≤ 2 ^ 127) :
    ∃ s', udivLoop s = some s' ∧ (∃ R k, UdivHead a b R k s') ∧ (DIGITS ≤ s'.digis ∨ s'.rem.toNat = 0) := by
  have round : ∀ t : UdivState, (∃ R k, UdivHead a b R k t) → t.unfinished = true →
      ∃ t', udivRound t = some t' ∧ (∃ R k, UdivHead a b R k t') ∧ DIGITS - t'.digis < DIGITS - t.digis := by
    rintro t ⟨R, k, hhead⟩ hc
    simp only [UdivState.unfinished, Bool.and_eq_true, decide_eq_true_eq] at hc
    obtain ⟨t', hrun, hinv, hlt⟩ := udivRound_spec hhead hb hb' hc.1
    exact ⟨t', hrun, hinv, by omega⟩
  obtain ⟨s', hrun, hinv, hexit⟩ := whileLoop_spec _ (fun t : UdivState => DIGITS - t.digis) round ⟨R, k, h⟩ (Nat.lt_succ_of_le (Nat.sub_le DIGITS s.digis))
  refine ⟨s', hrun, hinv, ?_⟩
  simp only [UdivState.unfinished, Bool.and_eq_false_iff, decide_eq_false_iff_not, not_lt, not_not] at hexit
  exact hexit.imp_right fun hzero => by rw [hzero]; rfl

theorem udivHead_init {a b : BitVec 128} (hb : 0 < b.toNat) :
    UdivHead a.toNat b.toNat (a.toNat / b.toNat) 0 ⟨a / b, a % b, b, 0, 0, []⟩ := by
  have hlt : a.toNat / b.toNat < 2 ^ 128 := (Nat.div_le_self _ _).trans_lt a.isLt
  refine ⟨⟨?_, ?_, ?_, Nat.zero_le _, List.not_mem_nil, fun _ => rfl⟩, .inr ?_⟩
  · rw [BitVec.toNat_udiv, Nat.mod_eq_of_lt hlt]
  · simp only [Nat.add_zero, pow_zero, Nat.mul_one, BitVec.toNat_umod]
    exact (Nat.div_add_mod' _ _).symm
  · exact Nat.mul_one _
  · rw [BitVec.toNat_umod]
    exact Nat.mod_lt _ hb

theorem UdivHead.quotient {a b R k : ℕ} {s : UdivState} (h : UdivHead a b R k s) (hb : 0 < b)
    (hexit : DIGITS ≤ s.digis ∨ s.rem.toNat = 0) : a * 2 ^ 64 / b = R * 2 ^ (DIGITS - s.digis) := by
  obtain ⟨hinv, hhead⟩ := h
  have hdigits : s.digis + s.shift ≤ 64 := hinv.digits
  have hvalue := hinv.value
  rcases hexit with hall | hzero
  · have hdigis : s.digis = 64 := by have : 64 ≤ s.digis := hall; omega
    have hshift : s.shift = 0 := by omega
    have hlt : s.rem.toNat < s.den.toNat := hhead.resolve_left (by omega)
    have hrem : s.rem.toNat * 2 ^ k < b := hinv.den ▸ Nat.mul_lt_mul_of_pos_right hlt (Nat.two_pow_pos k)
    rw [hdigis, hshift, Nat.add_zero, pow_zero, Nat.mul_one] at hvalue
    rw [hvalue, hdigis, Nat.mul_comm R b, Nat.mul_add_div hb, Nat.div_eq_of_lt hrem]
    exact (Nat.mul_one R).symm
  · rw [hzero, Nat.zero_mul, Nat.add_zero, pow_add, ← Nat.mul_assoc, Nat.mul_right_comm R] at hvalue
    have hexact : a * 2 ^ s.digis = R * b := Nat.eq_of_mul_eq_mul_right (Nat.two_pow_pos s.shift) hvalue
    have hpow : (2 : ℕ) ^ 64 = 2 ^ s.digis * 2 ^ (64 - s.digis) := by rw [← pow_add, Nat.add_sub_cancel' (by omega)]
    rw [hpow, ← Nat.mul_assoc, hexact, Nat.mul_right_comm, Nat.mul_div_cancel _ hb]
    rfl

/-- **What `Udiv` computes.** The loops end; the remainder loses no bit, and nothing is lost when the quotient fits. -/
theorem Udiv_spec {a b : BitVec 128} (hb : 0 < b.toNat) (hb' : b.toNat ≤ 2 ^ 127) :
    ∃ q, Udiv a b = some q ∧ q.val.toNat = a.toNat * 2 ^ 64 / b.toNat % 2 ^ 128 ∧ .remainderBit ∉ q.lost ∧
      (a.toNat * 2 ^ 64 / b.toNat < 2 ^ 128 → q.lost = []) := by
  obtain ⟨s₁, hrun₁, ⟨k₁, hhead₁⟩, -⟩ := skipTrailingZeros_spec (udivHead_init hb) rfl
  obtain ⟨s, hrun, ⟨R, k, hhead⟩, hexit⟩ := udivLoop_spec hhead₁ hb hb'
  have hquotient := hhead.quotient hb hexit
  have hle : R ≤ R * 2 ^ (DIGITS - s.digis) := Nat.le_mul_of_pos_right R (Nat.two_pow_pos _)
  have hres := hhead.1.result
  refine ⟨_, by rw [Udiv, hrun₁, Option.bind_some, hrun, Option.map_some], ?_⟩
  rw [hquotient]
  by_cases hdigis : s.digis < DIGITS
  · rw [if_pos hdigis]
    refine ⟨?_, ?_, fun hfits => ?_⟩
    · rw [BitVec.toNat_shiftLeft, Nat.shiftLeft_eq, hres, Nat.mod_mul_mod]
    · simp only [List.mem_append, not_or]
      refine ⟨hhead.1.remKept, ?_⟩
      unfold shlLost
      split_ifs <;> simp
    · have hR : R % 2 ^ 128 = R := Nat.mod_eq_of_lt (by omega)
      rw [hhead.1.kept (by omega), shlLost_eq_nil _ (by rw [hres, hR]; exact hfits)]
      rfl
  · have hone : DIGITS - s.digis = 0 := by omega
    rw [if_neg hdigis, hone, pow_zero, Nat.mul_one]
    exact ⟨hres, hhead.1.remKept, hhead.1.kept⟩

theorem Udiv_magnitude (x o : Int64x64) (ho : o.toInt ≠ 0) :
    ∃ q, Udiv (magnitude x.v) (magnitude o.v) = some q ∧
      q.val.toNat = (x.toInt * 2 ^ 64).natAbs / o.toInt.natAbs % 2 ^ 128 ∧ .remainderBit ∉ q.lost ∧
        ((x.toInt * 2 ^ 64).natAbs / o.toInt.natAbs < 2 ^ 128 → q.lost = []) := by
  have hspec := Udiv_spec (a := magnitude x.v) (b := magnitude o.v)
  rw [toNat_magnitude, toNat_magnitude] at hspec
  rw [Int.natAbs_mul]
  exact hspec (Int.natAbs_pos.mpr ho) (toNat_magnitude o.v ▸ o.magnitude_le)

/-- What `operator /=` computes. -/
theorem Div_spec (x o : Int64x64) (ho : o.toInt ≠ 0) (hfits : Representable ((x.toInt * 2 ^ 64).tdiv o.toInt)) :
    ∃ r, x.Div o = some r ∧ r.toInt = (x.toInt * 2 ^ 64).tdiv o.toInt := by
  obtain ⟨q, hrun, hval, -, -⟩ := Udiv_magnitude x o ho
  have hsign : decide (x.toInt * 2 ^ 64 < 0) = x.v.slt 0 := by
    rw [slt_zero_eq, decide_eq_decide]
    omega
  have hlt := natAbs_quotient_le hfits
  rw [Nat.mod_eq_of_lt (by omega)] at hval
  refine ⟨⟨withSign (output_sign x.v o.v).1 q.val⟩, ?_, ?_⟩
  · simp only [Div, output_sign, hrun, Option.map_some]
  · refine toInt_withSign_quotient ?_ hval hfits
    rw [signOf, hsign, ← slt_zero_eq]
    rfl

/-- **Division is exact.** The loops of `Udiv` end without a lost bit of the remainder. A quotient that is representable is the exact one,
truncated toward zero. -/
theorem div_exact (x o : Int64x64) (ho : o.toInt ≠ 0) :
    ∃ q, Udiv (magnitude x.v) (magnitude o.v) = some q ∧ .remainderBit ∉ q.lost ∧
      (Representable ((x.toInt * 2 ^ 64).tdiv o.toInt) →
        q.val.toNat = x.toInt.natAbs * 2 ^ 64 / o.toInt.natAbs ∧ q.lost = [] ∧
          ∃ r, x.Div o = some r ∧ r.toInt = (x.toInt * 2 ^ 64).tdiv o.toInt) := by
  have habs : (x.toInt * 2 ^ 64).natAbs = x.toInt.natAbs * 2 ^ 64 := Int.natAbs_mul ..
  obtain ⟨q, hrun, hval, hrem, hlost⟩ := Udiv_magnitude x o ho
  refine ⟨q, hrun, hrem, fun hfits => ?_⟩
  have hlt := natAbs_quotient_le hfits
  rw [Nat.mod_eq_of_lt (by omega)] at hval
  exact ⟨habs ▸ hval, hlost (by omega), Div_spec x o ho hfits⟩

/-- `-3 / 2` -/
theorem div_exact_halves : ∃ q, Udiv (magnitude (ofInt64 (-3)).v) (magnitude (ofInt64 2).v) = some q ∧ .remainderBit ∉ q.lost ∧
    (Representable (((ofInt64 (-3)).toInt * 2 ^ 64).tdiv (ofInt64 2).toInt) →
      q.val.toNat = (ofInt64 (-3)).toInt.natAbs * 2 ^ 64 / (ofInt64 2).toInt.natAbs ∧ q.lost = [] ∧
        ∃ r, (ofInt64 (-3)).Div (ofInt64 2) = some r ∧ r.toInt = ((ofInt64 (-3)).toInt * 2 ^ 64).tdiv (ofInt64 2).toInt) :=
  div_exact (ofInt64 (-3)) (ofInt64 2) (by decide)

end Ns3Ndn.Int64x64
