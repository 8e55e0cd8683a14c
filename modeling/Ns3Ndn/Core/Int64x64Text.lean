import Ns3Ndn.Core.Int64x64Invert
import Ns3Ndn.Lib.Text

/-!
# Decimal texts of Q64.64 numbers

`core/model/int64x64.cc`. A number is printed with at most twenty decimal places, and rounded in its text. A fraction is read from its last
digit on, with a division by ten for each digit.

* `digitLoop_spec`, `carryLoop_places`: the digits that are printed, and their rounding;
* **`texts_come_back`**: what is printed is read back, and which fractions are read right.
-/

namespace Ns3Ndn

open SignMagnitudeLib TextLib

namespace Int64x64

/-- `GetLow` -/
def GetLow (x : Int64x64) : BitVec 64 := x.v.setWidth 64

/-! ## Printing -/

def nextDigit (low : Int64x64) : Option (BitVec 64 × Int64x64) :=
  (low.Mul (ofInt64 10)).bind fun low =>
    let digit := low.GetHigh
    if 0 ≤ digit.toInt ∧ digit.toInt ≤ 9 then some (digit, ⟨low.v - (ofInt64 digit).v⟩) else none

/-- The loop over the decimal places, with the number of places that may follow: the digits, the last one, and what is left. -/
def digitLoop : ℕ → Int64x64 → Option (List UInt8 × BitVec 64 × Int64x64)
  | 0, low => (nextDigit low).map fun s => ([digitChar s.1.toNat], s)
  | n + 1, low => (nextDigit low).bind fun s =>
    if s.2.GetLow ≠ 0 then (digitLoop n s.2).map fun r => (digitChar s.1.toNat :: r.1, r.2) else some ([digitChar s.1.toNat], s)

def carryLoop : List UInt8 → List UInt8 × Bool
  | [] => ([], true)
  | c :: rest =>
    if c = 46 then ((c :: (carryLoop rest).1), (carryLoop rest).2)
    else if c + 1 ≤ 57 then ((c + 1) :: rest, false)
    else (48 :: (carryLoop rest).1, (carryLoop rest).2)

def roundUp (digits : List UInt8) : List UInt8 :=
  let r := carryLoop digits.reverse
  if r.2 then 49 :: r.1.reverse else r.1.reverse

/-- `os << v`, for an integer -/
def printInt (v : BitVec 64) : List UInt8 := if v.toInt < 0 then 45 :: decimal v.toInt.natAbs else decimal v.toInt.natAbs

/-- `operator <<`, without a floatfield -/
def print (value : Int64x64) : Option (List UInt8) :=
  let negative := value.v.slt 0
  let absVal : Int64x64 := ⟨magnitude value.v⟩
  (digitLoop 19 (ofHiLo 0 absVal.GetLow)).bind fun r =>
    let digits := printInt absVal.GetHigh ++ 46 :: r.1
    (r.2.2.Mul (ofInt64 10)).map fun low =>
      let next := low.GetHigh.toInt
      (if negative then 45 else 43) :: if 5 < next ∨ next = 5 ∧ r.2.1.toInt.tmod 2 = 1 then roundUp digits else digits

/-! ## Reading -/

/-- `ReadHiDigits` -/
def readHi (str : List UInt8) : BitVec 64 := str.foldl (fun retval c => retval * 10 + BitVec.ofInt 64 ((c.toNat : ℤ) - 48)) 0

/-- The loop of `ReadLoDigits`, from the last digit on. -/
def readLow : List UInt8 → Option Int64x64
  | [] => some ⟨0⟩
  | c :: rest => (readLow rest).bind fun low =>
    if 48 ≤ c.toNat ∧ c.toNat ≤ 57 then
      Div ⟨low.v + (ofInt64 (BitVec.ofNat 64 (c.toNat - 48))).v + (ofHiLo 0 5).v⟩ (ofInt64 10)
    else none

def readSign (str : List UInt8) : Bool × List UInt8 :=
  let str := str.dropWhile (· = 32)
  if 45 ∈ str then (true, (str.dropWhile (· ≠ 45)).tail)
  else if 43 ∈ str then (false, (str.dropWhile (· ≠ 43)).tail)
  else (false, str)

/-- `operator >>`, for a word of the input. Of an empty one, both parts are zero. -/
def read (str : List UInt8) : Option Int64x64 :=
  let sign := readSign str
  (if 46 ∈ sign.2 then
    (readLow (sign.2.dropWhile (· ≠ 46)).tail).map fun low => (readHi (sign.2.takeWhile (· ≠ 46)), low.GetLow)
  else some (readHi sign.2, 0)).map fun parts => ⟨withSign sign.1 (ofHiLo parts.1 parts.2).v⟩

/-! ## Parts of a number -/

section Parts

variable {x y : Int64x64}

theorem toInt_add (h : Representable (x.toInt + y.toInt)) : (⟨x.v + y.v⟩ : Int64x64).toInt = x.toInt + y.toInt := by
  obtain ⟨hle, hlt⟩ := h
  unfold toInt at *
  rw [BitVec.toInt_add]
  exact Int.bmod_eq_of_le (by omega) (by omega)

theorem toInt_sub (h : Representable (x.toInt - y.toInt)) : (⟨x.v - y.v⟩ : Int64x64).toInt = x.toInt - y.toInt := by
  obtain ⟨hle, hlt⟩ := h
  unfold toInt at *
  rw [BitVec.toInt_sub]
  exact Int.bmod_eq_of_le (by omega) (by omega)

theorem toNat_GetLow (x : Int64x64) : (x.GetLow.toNat : ℤ) = x.toInt % 2 ^ 64 := by
  have hcond := BitVec.toInt_eq_toNat_cond x.v
  have hbound := x.v.isLt
  unfold toInt GetLow
  rw [BitVec.toNat_setWidth]
  split_ifs at hcond <;> omega

theorem toInt_ofHiLo (hi lo : BitVec 64) : (ofHiLo hi lo).toInt = hi.toInt * 2 ^ 64 + lo.toNat := by
  have hle := BitVec.le_toInt hi
  have hlt := BitVec.toInt_lt (x := hi)
  have hlo := lo.isLt
  have hdisjoint : (hi.signExtend 128 <<< 64) &&& lo.setWidth 128 = 0 := by
    apply BitVec.eq_of_getLsbD_eq
    intro i hi'
    rw [BitVec.getLsbD_and, BitVec.getLsbD_shiftLeft, BitVec.getLsbD_setWidth]
    by_cases h : i < 64
    · simp [h]
    · simp [BitVec.getLsbD_of_ge lo i (by omega)]
  have hpart : (⟨lo.setWidth 128⟩ : Int64x64).toInt = lo.toNat := by
    show (lo.setWidth 128).toInt = lo.toNat
    rw [BitVec.toInt_eq_toNat_of_lt, BitVec.toNat_setWidth, Nat.mod_eq_of_lt (by omega)]
    rw [BitVec.toNat_setWidth, Nat.mod_eq_of_lt (by omega)]
    omega
  have hsum := toInt_add (x := ofInt64 hi) (y := ⟨lo.setWidth 128⟩) (by rw [toInt_ofInt64, hpart]; constructor <;> omega)
  rw [toInt_ofInt64, hpart] at hsum
  rw [← hsum, ofHiLo, ← BitVec.add_eq_or_of_and_eq_zero _ _ hdisjoint]
  rfl

end Parts

/-! ## The digits that are printed -/

section Digits

variable {low : Int64x64} {a : ℕ}

theorem toInt_ten : (ofInt64 10).toInt = 10 * 2 ^ 64 := by
  rw [toInt_ofInt64]
  rfl

theorem mul_ten (hlow : low.toInt = a) (ha : a < 2 ^ 64) : ∃ r, low.Mul (ofInt64 10) = some r ∧ r.toInt = (a * 10 : ℕ) := by
  obtain ⟨r, hrun, hr⟩ := Mul_spec low (ofInt64 10)
  have hprod : (low.toInt * (ofInt64 10).toInt).tdiv (2 ^ 64) = (a * 10 : ℕ) := by
    rw [hlow, toInt_ten, ← mul_assoc, Int.mul_tdiv_cancel _ (by decide)]
    push_cast
    rfl
  exact ⟨r, hrun, hprod ▸ hr (by rw [hprod]; constructor <;> push_cast <;> omega)⟩

theorem nextDigit_spec (hlow : low.toInt = a) (ha : a < 2 ^ 64) :
    ∃ digit low', nextDigit low = some (digit, low') ∧ digit.toNat = a * 10 / 2 ^ 64 ∧ digit.toInt = (a * 10 / 2 ^ 64 : ℕ) ∧
      low'.toInt = (a * 10 % 2 ^ 64 : ℕ) := by
  obtain ⟨r, hrun, hr⟩ := mul_ten hlow ha
  have hdigit : r.GetHigh.toInt = (a * 10 / 2 ^ 64 : ℕ) := by
    rw [toInt_GetHigh, hr]
    push_cast
    rfl
  have hle : a * 10 / 2 ^ 64 ≤ 9 := by omega
  have hsub := toInt_sub (x := r) (y := ofInt64 r.GetHigh) (by rw [toInt_ofInt64, hdigit, hr]; constructor <;> push_cast <;> omega)
  refine ⟨r.GetHigh, ⟨r.v - (ofInt64 r.GetHigh).v⟩, ?_, ?_, hdigit, ?_⟩
  · rw [nextDigit, hrun, Option.bind_some]
    exact if_pos ⟨by omega, by omega⟩
  · have hcond := BitVec.toInt_eq_toNat_cond r.GetHigh
    have hbound := r.GetHigh.isLt
    rw [hdigit] at hcond
    split_ifs at hcond <;> omega
  · rw [hsub, toInt_ofInt64, hdigit, hr]
    push_cast
    omega

/-- **The digits of a fraction**, up to the place where it ends or to the last one. -/
theorem digitLoop_spec (n : ℕ) (hlow : low.toInt = a) (ha : a < 2 ^ 64) :
    ∃ k digit low', 0 < k ∧ k ≤ n + 1 ∧ digitLoop n low = some (places k (a * 10 ^ k / 2 ^ 64), digit, low') ∧
      digit.toInt = (a * 10 ^ k / 2 ^ 64 % 10 : ℕ) ∧ low'.toInt = (a * 10 ^ k % 2 ^ 64 : ℕ) ∧
      (a * 10 ^ k % 2 ^ 64 = 0 ∨ k = n + 1) := by
  induction n generalizing low a with
  | zero =>
    obtain ⟨digit, low', hrun, hnat, hint, hlow'⟩ := nextDigit_spec hlow ha
    have hle : a * 10 / 2 ^ 64 < 10 := by omega
    refine ⟨1, digit, low', Nat.one_pos, le_rfl, ?_, ?_, by rw [pow_one, hlow'], .inr rfl⟩
    · rw [digitLoop, hrun, Option.map_some, hnat, pow_one, places, pow_zero, Nat.div_one]
      rfl
    · rw [hint, pow_one, Nat.mod_eq_of_lt hle]
  | succ n ih =>
    obtain ⟨digit, low₁, hrun, hnat, hint, hlow₁⟩ := nextDigit_spec hlow ha
    have hle : a * 10 / 2 ^ 64 < 10 := by omega
    have hget : low₁.GetLow.toNat = a * 10 % 2 ^ 64 := by
      have h := toNat_GetLow low₁
      rw [hlow₁] at h
      omega
    rw [digitLoop, hrun, Option.bind_some]
    by_cases hzero : a * 10 % 2 ^ 64 = 0
    · have hget0 : low₁.GetLow = 0 := BitVec.eq_of_toNat_eq (by rw [hget, hzero]; rfl)
      refine ⟨1, digit, low₁, Nat.one_pos, Nat.le_add_left 1 _, ?_, ?_, by rw [pow_one, hlow₁], .inl (by rw [pow_one, hzero])⟩
      · rw [if_neg (not_not.mpr hget0), hnat, pow_one, places, pow_zero, Nat.div_one]
        rfl
      · rw [hint, pow_one, Nat.mod_eq_of_lt hle]
    · have hget0 : low₁.GetLow ≠ 0 := fun h => hzero (by rw [← hget, h]; rfl)
      obtain ⟨k, digit', low', hpos, hk, hrun', hint', hlow', hend⟩ := ih hlow₁ (Nat.mod_lt _ (by decide))
      -- the digits of what is left come after the first one
      have hsplit : a * 10 ^ (k + 1) = 2 ^ 64 * (a * 10 / 2 ^ 64 * 10 ^ k) + a * 10 % 2 ^ 64 * 10 ^ k := by
        calc a * 10 ^ (k + 1) = a * 10 * 10 ^ k := by ring
          _ = (2 ^ 64 * (a * 10 / 2 ^ 64) + a * 10 % 2 ^ 64) * 10 ^ k := by rw [Nat.div_add_mod]
          _ = _ := by ring
      have hdiv : a * 10 ^ (k + 1) / 2 ^ 64 = a * 10 / 2 ^ 64 * 10 ^ k + a * 10 % 2 ^ 64 * 10 ^ k / 2 ^ 64 := by
        rw [hsplit, Nat.mul_add_div (by decide)]
      have hmod : a * 10 ^ (k + 1) % 2 ^ 64 = a * 10 % 2 ^ 64 * 10 ^ k % 2 ^ 64 := by
        rw [hsplit, Nat.mul_add_mod]
      have hrest : a * 10 % 2 ^ 64 * 10 ^ k / 2 ^ 64 < 10 ^ k :=
        Nat.div_lt_of_lt_mul (Nat.mul_lt_mul_of_pos_right (Nat.mod_lt _ (by decide)) (Nat.pow_pos (by decide)))
      refine ⟨k + 1, digit', low', Nat.succ_pos k, Nat.succ_le_succ hk, ?_, ?_, by rw [hmod, hlow'], ?_⟩
      · rw [if_pos hget0, hrun', Option.map_some, hnat, places, hdiv, Nat.add_comm, Nat.add_mul_div_right _ _ (Nat.pow_pos (by decide)),
          Nat.div_eq_of_lt hrest, Nat.zero_add, Nat.add_mul_mod_self_right, Nat.mod_eq_of_lt hrest]
      · obtain ⟨k, rfl⟩ := Nat.exists_eq_succ_of_ne_zero hpos.ne'
        rw [hint', hdiv, Nat.succ_eq_add_one, pow_succ 10 k, ← Nat.mul_assoc (a * 10 / 2 ^ 64), Nat.add_comm, Nat.add_mul_mod_self_right]
      · rw [hmod]
        exact hend.imp_right fun h => by rw [h]

theorem carryLoop_places {k n : ℕ} (hn : n + 1 < 10 ^ k) (rest : List UInt8) :
    carryLoop ((places k n).reverse ++ rest) = ((places k (n + 1)).reverse ++ rest, false) := by
  induction k generalizing n with
  | zero => exact absurd hn (by rw [pow_zero]; omega)
  | succ k ih =>
    rw [pow_succ] at hn
    have hdigit : ∀ d < 10, digitChar d ≠ 46 := by decide
    rw [places_concat (by rw [pow_succ]; omega), places_concat (by rw [pow_succ]; omega), List.reverse_append, List.reverse_append,
      List.reverse_singleton, List.reverse_singleton, List.singleton_append, List.singleton_append, List.cons_append, carryLoop,
      if_neg (hdigit _ (Nat.mod_lt _ (by decide)))]
    by_cases h9 : n % 10 = 9
    · have hlast : ¬ digitChar 9 + 1 ≤ 57 := by decide
      have hnext : (n + 1) / 10 = n / 10 + 1 ∧ (n + 1) % 10 = 0 := by omega
      rw [h9, if_neg hlast, ih (by omega), hnext.1, hnext.2]
      rfl
    · have hless : ∀ d < 9, digitChar d + 1 ≤ 57 ∧ digitChar d + 1 = digitChar (d + 1) := by decide
      have hnext : (n + 1) / 10 = n / 10 ∧ (n + 1) % 10 = n % 10 + 1 := by omega
      obtain ⟨hle, heq⟩ := hless (n % 10) (by omega)
      rw [if_pos hle, heq, hnext.1, hnext.2]
      rfl

theorem roundUp_places {k n : ℕ} (hn : n + 1 < 10 ^ k) (hi : List UInt8) : roundUp (hi ++ places k n) = hi ++ places k (n + 1) := by
  rw [roundUp, List.reverse_append, carryLoop_places hn]
  dsimp only
  rw [if_neg Bool.false_ne_true, ← List.reverse_append, List.reverse_reverse]

end Digits

/-! ## The fraction that is read -/

section Reading

variable {x : Int64x64} {l : List UInt8} {a n : ℕ}

theorem div_ten (hx : x.toInt = a) (ha : a < 2 ^ 100) : ∃ r, x.Div (ofInt64 10) = some r ∧ r.toInt = (a / 10 : ℕ) := by
  have hquo : (x.toInt * 2 ^ 64).tdiv (ofInt64 10).toInt = ((a / 10 : ℕ) : ℤ) := by
    rw [hx, toInt_ten, Int.mul_tdiv_mul_of_pos_left _ _ (by decide)]
    exact (Int.ofNat_tdiv a 10).symm
  obtain ⟨r, hrun, hr⟩ := Div_spec x (ofInt64 10) (by rw [toInt_ten]; decide) (by rw [hquo]; constructor <;> push_cast <;> omega)
  exact ⟨r, hrun, hr.trans hquo⟩

/-- The ones that the rounding terms of `n` divisions make. -/
def ones : ℕ → ℕ
  | 0 => 0
  | n + 1 => ones n + 10 ^ n

theorem nine_mul_ones (n : ℕ) : 9 * ones n + 1 = 10 ^ n := by
  induction n with
  | zero => rfl
  | succ n ih =>
    rw [ones, pow_succ]
    omega

/-- What is read of the `n` digits of `m`. -/
def fraction (m n : ℕ) : ℕ := (m * 2 ^ 64 + 5 * ones n) / 10 ^ n

theorem fraction_le {m : ℕ} (hm : m < 10 ^ n) : fraction m n ≤ 2 ^ 64 := by
  have hones := nine_mul_ones n
  rw [fraction]
  refine Nat.le_of_lt_succ (Nat.div_lt_of_lt_mul ?_)
  have hmul : m * 2 ^ 64 ≤ 10 ^ n * 2 ^ 64 := Nat.mul_le_mul_right _ hm.le
  omega

theorem readLow_spec (hl : ∀ c ∈ l, isDigit c = true) :
    ∃ low, readLow l = some low ∧ low.toInt = (fraction (ofDigitChars l) l.length : ℕ) := by
  induction l with
  | nil => exact ⟨⟨0⟩, rfl, rfl⟩
  | cons c l ih =>
    obtain ⟨hc, hl⟩ := List.forall_mem_cons.mp hl
    obtain ⟨low, hrun, hlow⟩ := ih hl
    have hdigit : 48 ≤ c.toNat ∧ c.toNat ≤ 57 := by simpa [isDigit] using hc
    have hle := fraction_le (ofDigitChars_lt hl)
    have hd : (BitVec.ofNat 64 (c.toNat - 48)).toInt = (c.toNat - 48 : ℕ) := by
      rw [BitVec.toInt_ofNat']
      exact Int.bmod_eq_of_le (by omega) (by omega)
    have hround : (ofHiLo 0 5).toInt = 5 := by rw [toInt_ofHiLo]; rfl
    have hsum := toInt_add (x := low) (y := ofInt64 (BitVec.ofNat 64 (c.toNat - 48))) (by
      rw [toInt_ofInt64, hd, hlow]; constructor <;> omega)
    have hsum' := toInt_add (x := ⟨low.v + (ofInt64 (BitVec.ofNat 64 (c.toNat - 48))).v⟩) (y := ofHiLo 0 5) (by
      rw [hsum, toInt_ofInt64, hd, hlow, hround]; constructor <;> omega)
    rw [hsum, toInt_ofInt64, hd, hlow, hround] at hsum'
    obtain ⟨r, hdiv, hr⟩ := div_ten (a := fraction (ofDigitChars l) l.length + (c.toNat - 48) * 2 ^ 64 + 5)
      (hsum'.trans (by push_cast; ring)) (by omega)
    refine ⟨r, ?_, hr.trans ?_⟩
    · rw [readLow, hrun, Option.bind_some, if_pos hdigit, hdiv]
    · -- the floors of the divisions are one floor
      have hpow : 0 < 10 ^ l.length := Nat.pow_pos (by decide)
      refine congrArg (fun v : ℕ => (v : ℤ)) ?_
      rw [fraction, fraction, ofDigitChars_cons, List.length_cons, ones, pow_succ 10, ← Nat.div_div_eq_div_mul, Nat.add_assoc,
        ← Nat.add_mul_div_right _ _ hpow]
      refine congrArg (fun v => v / 10 ^ l.length / 10) ?_
      ring

theorem readHi_eq (hl : ∀ c ∈ l, isDigit c = true) : readHi l = BitVec.ofNat 64 (ofDigitChars l) := by
  induction l using List.reverseRecOn with
  | nil => rfl
  | append_singleton l c ih =>
    have hc : isDigit c = true := hl c (List.mem_append_right _ List.mem_cons_self)
    have hdigit : 48 ≤ c.toNat ∧ c.toNat ≤ 57 := by simpa [isDigit] using hc
    have hd : BitVec.ofInt 64 ((c.toNat : ℤ) - 48) = BitVec.ofNat 64 (c.toNat - 48) := by
      rw [← BitVec.ofInt_natCast]
      congr 1
      omega
    have hrec := ih fun d hd => hl d (List.mem_append_left _ hd)
    rw [readHi, List.foldl_append, ← readHi, hrec, ofDigitChars_append]
    show _ * 10 + BitVec.ofInt 64 ((c.toNat : ℤ) - 48) = _
    rw [hd, BitVec.ofNat_add, BitVec.ofNat_mul]
    rfl

theorem readSign_minus (t : List UInt8) : readSign (45 :: t) = (true, t) := by
  have hspace : (45 :: t).dropWhile (fun c : UInt8 => decide (c = 32)) = 45 :: t := rfl
  have hminus : (45 :: t).dropWhile (fun c : UInt8 => decide (c ≠ 45)) = 45 :: t := rfl
  rw [readSign, hspace, if_pos List.mem_cons_self, hminus, List.tail_cons]

theorem readSign_plus {t : List UInt8} (ht : 45 ∉ t) : readSign (43 :: t) = (false, t) := by
  have hspace : (43 :: t).dropWhile (fun c : UInt8 => decide (c = 32)) = 43 :: t := rfl
  have hplus : (43 :: t).dropWhile (fun c : UInt8 => decide (c ≠ 43)) = 43 :: t := rfl
  have hminus : (45 : UInt8) ∉ 43 :: t := fun h => (List.mem_cons.mp h).elim (by decide) ht
  rw [readSign, hspace, if_neg hminus, if_pos List.mem_cons_self, hplus, List.tail_cons]

theorem readSign_none {t : List UInt8} (h32 : 32 ∉ t) (h45 : 45 ∉ t) (h43 : 43 ∉ t) : readSign t = (false, t) := by
  have hspace : t.dropWhile (· = 32) = t := by
    cases t with
    | nil => rfl
    | cons c t => exact List.dropWhile_cons_of_neg fun h => h32 (List.mem_cons.mpr (.inl (of_decide_eq_true h).symm))
  rw [readSign, hspace, if_neg h45, if_neg h43]

variable {hs fs : List UInt8} {negative : Bool}

theorem not_mem_digits (hhs : ∀ c ∈ hs, isDigit c = true) (hfs : ∀ c ∈ fs, isDigit c = true) {c : UInt8} (hc : isDigit c = false)
    (hpoint : c ≠ 46) : c ∉ hs ++ 46 :: fs := by
  intro hmem
  rcases List.mem_append.mp hmem with hmem | hmem
  · exact Bool.false_ne_true (hc.symm.trans (hhs c hmem))
  · rcases List.mem_cons.mp hmem with heq | hmem
    · exact hpoint heq
    · exact Bool.false_ne_true (hc.symm.trans (hfs c hmem))

/-- **A number is read** from the digits of its parts, where a carry of the fraction is lost. -/
theorem read_spec {str : List UInt8} (hsign : readSign str = (negative, hs ++ 46 :: fs)) (hhs : ∀ c ∈ hs, isDigit c = true)
    (hfs : ∀ c ∈ fs, isDigit c = true) (hhigh : ofDigitChars hs < 2 ^ 63) :
    ∃ x : Int64x64, read str = some ⟨withSign negative x.v⟩ ∧
      x.toInt = (ofDigitChars hs * 2 ^ 64 + fraction (ofDigitChars fs) fs.length % 2 ^ 64 : ℕ) := by
  have hpoint : ∀ c ∈ hs, decide (c ≠ 46) = true := fun c hc => by
    refine decide_eq_true fun heq => ?_
    rw [heq] at hc
    exact absurd (hhs _ hc) (by decide)
  have htake : (46 :: fs).takeWhile (fun c : UInt8 => decide (c ≠ 46)) = [] := rfl
  have hdrop : (46 :: fs).dropWhile (fun c : UInt8 => decide (c ≠ 46)) = 46 :: fs := rfl
  obtain ⟨low, hrun, hlow⟩ := readLow_spec hfs
  refine ⟨ofHiLo (BitVec.ofNat 64 (ofDigitChars hs)) low.GetLow, ?_, ?_⟩
  · rw [read, hsign]
    dsimp only
    rw [if_pos (List.mem_append_right _ List.mem_cons_self), List.takeWhile_append_of_pos hpoint, List.dropWhile_append_of_pos hpoint,
      htake, hdrop, List.append_nil, List.tail_cons, hrun, Option.map_some, Option.map_some, readHi_eq hhs]
  · have hhi : (BitVec.ofNat 64 (ofDigitChars hs)).toInt = ofDigitChars hs := by
      rw [BitVec.toInt_ofNat']
      exact Int.bmod_eq_of_le (by omega) (by omega)
    rw [toInt_ofHiLo, hhi, toNat_GetLow, hlow]
    push_cast
    rfl

end Reading

/-! ## The texts that come back -/

section Texts

variable {lo k : ℕ}

theorem fraction_exact (hmod : lo * 10 ^ k % 2 ^ 64 = 0) : fraction (lo * 10 ^ k / 2 ^ 64) k = lo := by
  have hones := nine_mul_ones k
  rw [fraction, Nat.div_mul_cancel (Nat.dvd_of_mod_eq_zero hmod)]
  refine Nat.div_eq_of_lt_le (Nat.le_add_right _ _) ?_
  have hnext : (lo + 1) * 10 ^ k = lo * 10 ^ k + 10 ^ k := Nat.succ_mul lo _
  omega

theorem fraction_rounded (hlo : lo < 2 ^ 64) {m : ℕ} (hm : m = lo * 10 ^ 20 / 2 ^ 64 ∧ lo * 10 ^ 20 % 2 ^ 64 * 10 / 2 ^ 64 ≤ 5 ∨
    m = lo * 10 ^ 20 / 2 ^ 64 + 1 ∧ 5 ≤ lo * 10 ^ 20 % 2 ^ 64 * 10 / 2 ^ 64) : m < 10 ^ 20 ∧ fraction m 20 = lo := by
  have hones : ones 20 = 11111111111111111111 := rfl
  constructor
  · omega
  · rw [fraction, hones]
    omega

theorem isDigit_places {k m : ℕ} (hm : m < 10 ^ k) : ∀ c ∈ places k m, isDigit c = true := fun _ hc => isDigit_of_mem_places hm hc

/-- **What is printed**: the integral part, and places from which the fraction is read back. -/
theorem print_spec (x : Int64x64) (hx : x.v ≠ BitVec.intMin 128) :
    ∃ k m, print x = some ((if x.v.slt 0 then 45 else 43) :: (decimal (x.toInt.natAbs / 2 ^ 64) ++ 46 :: places k m)) ∧ m < 10 ^ k ∧
      fraction m k = x.toInt.natAbs % 2 ^ 64 := by
  have hlt : x.toInt.natAbs < 2 ^ 127 := natAbs_toInt_lt hx
  have habs : (⟨magnitude x.v⟩ : Int64x64).toInt = x.toInt.natAbs := by
    have hnat : (magnitude x.v).toNat = x.toInt.natAbs := toNat_magnitude x.v
    show (magnitude x.v).toInt = _
    rw [BitVec.toInt_eq_toNat_of_lt (by omega), hnat]
  have hhigh : (⟨magnitude x.v⟩ : Int64x64).GetHigh.toInt = (x.toInt.natAbs / 2 ^ 64 : ℕ) := by
    rw [toInt_GetHigh, habs]
    push_cast
    rfl
  have hprint : printInt (⟨magnitude x.v⟩ : Int64x64).GetHigh = decimal (x.toInt.natAbs / 2 ^ 64) := by
    rw [printInt, hhigh, if_neg (by omega), Int.natAbs_natCast]
  have hlow : (ofHiLo 0 (⟨magnitude x.v⟩ : Int64x64).GetLow).toInt = (x.toInt.natAbs % 2 ^ 64 : ℕ) := by
    have hzero : (0 : BitVec 64).toInt = 0 := rfl
    rw [toInt_ofHiLo, toNat_GetLow, habs, hzero, zero_mul, zero_add]
    push_cast
    rfl
  have hlo : x.toInt.natAbs % 2 ^ 64 < 2 ^ 64 := Nat.mod_lt _ (by decide)
  generalize x.toInt.natAbs % 2 ^ 64 = lo at *
  obtain ⟨k, digit, low', hpos, hk, hrun, hdigit, hlow', hend⟩ := digitLoop_spec 19 hlow hlo
  have hmod : lo * 10 ^ k % 2 ^ 64 < 2 ^ 64 := Nat.mod_lt _ (by decide)
  obtain ⟨low, hmul, hten⟩ := mul_ten hlow' hmod
  have hnext : low.GetHigh.toInt = (lo * 10 ^ k % 2 ^ 64 * 10 / 2 ^ 64 : ℕ) := by
    rw [toInt_GetHigh, hten]
    push_cast
    rfl
  have hm : lo * 10 ^ k / 2 ^ 64 < 10 ^ k :=
    Nat.div_lt_of_lt_mul (Nat.mul_lt_mul_of_pos_right hlo (Nat.pow_pos (by decide)))
  rw [print, hrun, Option.bind_some]
  dsimp only
  rw [hmul, Option.map_some, hprint, hnext]
  rcases hend with hzero | heq
  · have hdown : ¬ (5 < ((0 * 10 / 2 ^ 64 : ℕ) : ℤ) ∨ ((0 * 10 / 2 ^ 64 : ℕ) : ℤ) = 5 ∧ digit.toInt.tmod 2 = 1) := by
      rintro (h | h) <;> omega
    exact ⟨k, lo * 10 ^ k / 2 ^ 64, by rw [hzero, if_neg hdown], hm, fraction_exact hzero⟩
  · obtain rfl : k = 20 := heq
    by_cases hround : 5 < ((lo * 10 ^ 20 % 2 ^ 64 * 10 / 2 ^ 64 : ℕ) : ℤ) ∨
        ((lo * 10 ^ 20 % 2 ^ 64 * 10 / 2 ^ 64 : ℕ) : ℤ) = 5 ∧ digit.toInt.tmod 2 = 1
    · have hge : 5 ≤ lo * 10 ^ 20 % 2 ^ 64 * 10 / 2 ^ 64 := by
        rcases hround with h | ⟨h, -⟩ <;> omega
      obtain ⟨hlt', hread⟩ := fraction_rounded hlo (.inr ⟨rfl, hge⟩)
      refine ⟨20, lo * 10 ^ 20 / 2 ^ 64 + 1, ?_, hlt', hread⟩
      rw [if_pos hround, List.append_cons, roundUp_places hlt', ← List.append_cons]
    · have hle : lo * 10 ^ 20 % 2 ^ 64 * 10 / 2 ^ 64 ≤ 5 := by
        by_contra h
        exact hround (.inl (by omega))
      obtain ⟨hlt', hread⟩ := fraction_rounded hlo (.inl ⟨rfl, hle⟩)
      exact ⟨20, lo * 10 ^ 20 / 2 ^ 64, by rw [if_neg hround], hlt', hread⟩

theorem read_print (x : Int64x64) (hx : x.v ≠ BitVec.intMin 128) : ∃ str, print x = some str ∧ read str = some x := by
  obtain ⟨k, m, hprint, hm, hfraction⟩ := print_spec x hx
  have hlt : x.toInt.natAbs < 2 ^ 127 := natAbs_toInt_lt hx
  have hhs : ∀ c ∈ decimal (x.toInt.natAbs / 2 ^ 64), isDigit c = true := fun _ hc => isDigit_of_mem_decimal hc
  have hsign : readSign ((if x.v.slt 0 then 45 else 43) :: (decimal (x.toInt.natAbs / 2 ^ 64) ++ 46 :: places k m)) =
      (x.v.slt 0, decimal (x.toInt.natAbs / 2 ^ 64) ++ 46 :: places k m) := by
    cases x.v.slt 0 with
    | true => exact readSign_minus _
    | false => exact readSign_plus (not_mem_digits hhs (isDigit_places hm) (by decide) (by decide))
  obtain ⟨y, hread, hy⟩ := read_spec hsign hhs (isDigit_places hm) (by rw [ofDigitChars_decimal]; omega)
  rw [ofDigitChars_decimal, ofDigitChars_places hm, length_places, hfraction, Nat.mod_mod, Nat.mul_comm, Nat.div_add_mod] at hy
  refine ⟨_, hprint, hread.trans (congrArg some (eq_of_toInt_eq ?_))⟩
  have hnat : y.v.toNat = x.toInt.natAbs := by
    have hcond := BitVec.toInt_eq_toNat_cond y.v
    have hbound := y.v.isLt
    have hy' : y.v.toInt = x.toInt.natAbs := hy
    split_ifs at hcond <;> omega
  show (withSign (x.v.slt 0) y.v).toInt = x.toInt
  rw [toInt_withSign (.inl (by omega)), hnat, slt_zero_eq]
  split_ifs with hneg
  · rw [decide_eq_true_eq] at hneg
    omega
  · rw [decide_eq_true_eq] at hneg
    omega

def decimalValue (hs fs : List UInt8) : ℚ := ofDigitChars hs + ofDigitChars fs / 10 ^ fs.length

/-- **A decimal text is read** to within one unit of the last place. -/
def ReadsClose (hs fs : List UInt8) : Prop :=
  ∃ x, read (hs ++ 46 :: fs) = some x ∧ |(x.toInt : ℚ) / 2 ^ 64 - decimalValue hs fs| ≤ 1 / 2 ^ 64

theorem abs_sub_decimalValue_le_iff (v : ℤ) (hs fs : List UInt8) :
    |(v : ℚ) / 2 ^ 64 - decimalValue hs fs| ≤ 1 / 2 ^ 64 ↔
      |v * 10 ^ fs.length - (ofDigitChars hs * 10 ^ fs.length + ofDigitChars fs) * 2 ^ 64| ≤ 10 ^ fs.length := by
  have hpow : (0 : ℚ) < 10 ^ fs.length := by positivity
  have hdiff : (v : ℚ) / 2 ^ 64 - decimalValue hs fs =
      ((v * 10 ^ fs.length - (ofDigitChars hs * 10 ^ fs.length + ofDigitChars fs) * 2 ^ 64 : ℤ) : ℚ) / (2 ^ 64 * 10 ^ fs.length) := by
    rw [decimalValue]
    push_cast
    field_simp
    ring
  rw [hdiff, abs_div, abs_of_pos (by positivity : (0 : ℚ) < 2 ^ 64 * 10 ^ fs.length), div_le_div_iff₀ (by positivity) (by positivity), one_mul,
    mul_comm, mul_le_mul_iff_right₀ (by positivity)]
  exact_mod_cast Iff.rfl

theorem fraction_lt_iff (m n : ℕ) : fraction m n < 2 ^ 64 ↔ (m : ℚ) / 10 ^ n < 1 - 5 / (9 * 2 ^ 64) := by
  have hones := nine_mul_ones n
  have hpow : (0 : ℚ) < 10 ^ n := by positivity
  have hcond : (m : ℚ) / 10 ^ n < 1 - 5 / (9 * 2 ^ 64) ↔ 9 * 2 ^ 64 * m + 5 * 10 ^ n < 9 * 2 ^ 64 * 10 ^ n := by
    rw [div_lt_iff₀ hpow, ← @Nat.cast_lt ℚ]
    push_cast
    constructor <;> intro h <;> linarith
  rw [hcond, fraction, Nat.div_lt_iff_lt_mul (Nat.pow_pos (by decide))]
  omega

theorem readsClose_iff {hs fs : List UInt8} (hhs : ∀ c ∈ hs, isDigit c = true) (hfs : ∀ c ∈ fs, isDigit c = true)
    (hvalue : decimalValue hs fs < 2 ^ 63 - 1) :
    ReadsClose hs fs ↔ (ofDigitChars fs : ℚ) / 10 ^ fs.length < 1 - 5 / (9 * 2 ^ 64) := by
  have hhigh : ofDigitChars hs < 2 ^ 63 := by
    have hnonneg : (0 : ℚ) ≤ ofDigitChars fs / 10 ^ fs.length := by positivity
    rw [decimalValue] at hvalue
    have hcast : (ofDigitChars hs : ℚ) < 2 ^ 63 := by linarith
    exact_mod_cast hcast
  have hsign := readSign_none (not_mem_digits hhs hfs (c := 32) (by decide) (by decide))
    (not_mem_digits hhs hfs (c := 45) (by decide) (by decide)) (not_mem_digits hhs hfs (c := 43) (by decide) (by decide))
  obtain ⟨x, hread, hx⟩ := read_spec hsign hhs hfs hhigh
  have hclose : ReadsClose hs fs ↔ |(x.toInt : ℚ) / 2 ^ 64 - decimalValue hs fs| ≤ 1 / 2 ^ 64 := by
    constructor
    · rintro ⟨y, hy, hclose⟩
      obtain rfl : y = x := Option.some_inj.mp (hy.symm.trans hread)
      exact hclose
    · exact fun hclose => ⟨x, hread, hclose⟩
  have hle := fraction_le (ofDigitChars_lt hfs)
  have hones := nine_mul_ones fs.length
  have hfloor : fraction (ofDigitChars fs) fs.length * 10 ^ fs.length ≤ ofDigitChars fs * 2 ^ 64 + 5 * ones fs.length :=
    Nat.div_mul_le_self _ _
  have hceil : ofDigitChars fs * 2 ^ 64 + 5 * ones fs.length < fraction (ofDigitChars fs) fs.length * 10 ^ fs.length + 10 ^ fs.length :=
    Nat.lt_div_mul_add (Nat.pow_pos (by decide))
  rw [hclose, abs_sub_decimalValue_le_iff, ← fraction_lt_iff, hx]
  have hdiff (r : ℕ) : ((ofDigitChars hs * 2 ^ 64 + r : ℕ) : ℤ) * 10 ^ fs.length -
      (ofDigitChars hs * 10 ^ fs.length + ofDigitChars fs) * 2 ^ 64 = (r * 10 ^ fs.length : ℕ) - (ofDigitChars fs * 2 ^ 64 : ℕ) := by
    push_cast
    ring
  have hpow : (10 : ℤ) ^ fs.length = (10 ^ fs.length : ℕ) := by push_cast; rfl
  rw [hdiff, abs_le, hpow]
  rcases hle.lt_or_eq with hlt | heq
  · rw [Nat.mod_eq_of_lt hlt]
    exact iff_of_true ⟨by omega, by omega⟩ hlt
  · rw [heq] at hfloor ⊢
    exact iff_of_false (fun h => by omega) (lt_irrefl _)

/-- **What is printed is read back**, for each number but the least one, and a decimal text is read to within one unit of the last place if its
fraction is less than one by more than five ninths of a unit. -/
theorem texts_come_back (x : Int64x64) (hx : x.v ≠ BitVec.intMin 128) (hs fs : List UInt8) (hhs : ∀ c ∈ hs, isDigit c = true)
    (hfs : ∀ c ∈ fs, isDigit c = true) (hvalue : decimalValue hs fs < 2 ^ 63 - 1) :
    (∃ str, print x = some str ∧ read str = some x) ∧
      (ReadsClose hs fs ↔ (ofDigitChars fs : ℚ) / 10 ^ fs.length < 1 - 5 / (9 * 2 ^ 64)) :=
  ⟨read_print x hx, readsClose_iff hhs hfs hvalue⟩

def nines : List UInt8 := List.replicate 20 (digitChar 9)

theorem nines_spec : (∀ c ∈ nines, isDigit c = true) ∧ (ofDigitChars nines : ℚ) / 10 ^ nines.length = 99999999999999999999 / 10 ^ 20 ∧
    decimalValue (decimal 0) nines < 2 ^ 63 - 1 := by
  have hfs : ofDigitChars nines = 99999999999999999999 := by decide
  refine ⟨fun c hc => ?_, by rw [hfs, nines, List.length_replicate]; norm_num, ?_⟩
  · rw [List.eq_of_mem_replicate hc]
    exact isDigit_digitChar (by decide)
  · rw [decimalValue, hfs, ofDigitChars_decimal, nines, List.length_replicate]
    norm_num

theorem texts_come_back_nines :
    (∃ str, print ⟨0⟩ = some str ∧ read str = some ⟨0⟩) ∧
      (ReadsClose (decimal 0) nines ↔ (ofDigitChars nines : ℚ) / 10 ^ nines.length < 1 - 5 / (9 * 2 ^ 64)) :=
  texts_come_back ⟨0⟩ (by decide) _ _ (fun _ hc => isDigit_of_mem_decimal hc) nines_spec.1 nines_spec.2.2

/-- The carry is lost, and zero is read. -/
theorem not_texts_come_back_nines :
    ¬ ((∀ x : Int64x64, x.v ≠ BitVec.intMin 128 → ∃ str, print x = some str ∧ read str = some x) ∧
      ∀ hs fs : List UInt8, (∀ c ∈ hs, isDigit c = true) → (∀ c ∈ fs, isDigit c = true) → decimalValue hs fs < 2 ^ 63 - 1 →
        ReadsClose hs fs) := by
  rintro ⟨-, h⟩
  obtain ⟨hfs, hfraction, hvalue⟩ := nines_spec
  have hhs : ∀ c ∈ decimal 0, isDigit c = true := fun _ hc => isDigit_of_mem_decimal hc
  have hlt := (readsClose_iff hhs hfs hvalue).mp (h (decimal 0) nines hhs hfs hvalue)
  rw [hfraction] at hlt
  norm_num at hlt

end Texts

end Int64x64

end Ns3Ndn
