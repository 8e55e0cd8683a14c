import Mathlib

/-!
# Texts of bytes

Numbers and bytes as ASCII texts, and texts in which some bytes are escaped.

* `decimal`, `scanDecimal`, **`scanDecimal_decimal`**: numbers in base ten;
* `places`, **`ofDigitChars_places`**: the digits after a point;
* `toHexChar`, `fromHexChar`, `printHex`, `fromHex`, **`fromHex_printHex`**: bytes as two hexadecimal digits;
* `escape`, `unescape`, **`unescape_escape`**: percent-encoding, with any set of bytes that are not escaped.
-/

namespace TextLib

/-! ## Numbers -/

def digitChar (d : ℕ) : UInt8 := UInt8.ofNat (48 + d)

def isDigit (c : UInt8) : Bool := 48 ≤ c.toNat ∧ c.toNat ≤ 57

def isSpace (c : UInt8) : Bool := c.toNat = 32 ∨ 9 ≤ c.toNat ∧ c.toNat ≤ 13

/-- A number in base ten, without zeros before it. -/
def decimal (n : ℕ) : List UInt8 := if n = 0 then [digitChar 0] else (Nat.digits 10 n).reverse.map digitChar

def ofDigitChars (l : List UInt8) : ℕ := l.foldl (fun n c => n * 10 + (c.toNat - 48)) 0

def dropSign : List UInt8 → List UInt8
  | c :: rest => if c.toNat = 43 ∨ c.toNat = 45 then rest else c :: rest
  | [] => []

/-- The digits after blanks and a sign, if there are any. The sign and what comes after the digits are not looked at. -/
def scanDecimal (l : List UInt8) : Option ℕ :=
  let digits := (dropSign (l.dropWhile isSpace)).takeWhile isDigit
  if digits = [] then none else some (ofDigitChars digits)

theorem toNat_digitChar {d : ℕ} (h : d < 10) : (digitChar d).toNat = 48 + d := by
  rw [digitChar, UInt8.toNat_ofNat']
  omega

theorem isDigit_digitChar {d : ℕ} (h : d < 10) : isDigit (digitChar d) = true := by
  unfold isDigit
  rw [toNat_digitChar h]
  simp
  omega

theorem isDigit_of_mem_decimal {n : ℕ} {c : UInt8} (hc : c ∈ decimal n) : isDigit c = true := by
  unfold decimal at hc
  split_ifs at hc with hn
  · obtain rfl := List.mem_singleton.mp hc
    decide
  · obtain ⟨d, hd, rfl⟩ := List.mem_map.mp hc
    exact isDigit_digitChar (Nat.digits_lt_base (by decide) (List.mem_reverse.mp hd))

theorem decimal_ne_nil (n : ℕ) : decimal n ≠ [] := by
  unfold decimal
  split_ifs with hn
  · exact List.cons_ne_nil _ _
  · simpa [Nat.digits_eq_nil_iff_eq_zero] using hn

theorem ofDigitChars_decimal (n : ℕ) : ofDigitChars (decimal n) = n := by
  unfold decimal
  split_ifs with hn
  · rw [hn]
    decide
  · have hfold : ∀ l : List ℕ, (∀ d ∈ l, d < 10) → ofDigitChars (l.reverse.map digitChar) = Nat.ofDigits 10 l := by
      intro l hl
      induction l with
      | nil => rfl
      | cons d l ih =>
        obtain ⟨hd, hl⟩ := List.forall_mem_cons.mp hl
        have hrec := ih hl
        unfold ofDigitChars at hrec ⊢
        rw [List.reverse_cons, List.map_append, List.foldl_append, hrec, Nat.ofDigits_cons]
        change Nat.ofDigits 10 l * 10 + ((digitChar d).toNat - 48) = _
        rw [toNat_digitChar hd]
        omega
    rw [hfold _ fun d hd => Nat.digits_lt_base (by decide) hd, Nat.ofDigits_digits]

theorem not_isSpace_of_isDigit {c : UInt8} (h : isDigit c = true) : isSpace c = false ∧ ¬ (c.toNat = 43 ∨ c.toNat = 45) := by
  unfold isDigit at h
  unfold isSpace
  simp at h ⊢
  omega

/-- **A number is read off its text**, and what follows it if that is not a digit. -/
theorem scanDecimal_decimal (n : ℕ) : scanDecimal (decimal n) = some n := by
  rcases hl : decimal n with _ | ⟨c, rest⟩
  · exact absurd hl (decimal_ne_nil n)
  · have hall : ∀ x ∈ c :: rest, isDigit x = true := fun x hx => isDigit_of_mem_decimal (hl ▸ hx)
    obtain ⟨hspace, hsign⟩ := not_isSpace_of_isDigit (hall c List.mem_cons_self)
    unfold scanDecimal
    rw [List.dropWhile_cons_of_neg (by simp [hspace]), dropSign, if_neg hsign, List.takeWhile_eq_self_iff.mpr hall]
    dsimp only
    rw [if_neg (List.cons_ne_nil _ _), ← hl, ofDigitChars_decimal]

/-! ## Digits after a point -/

/-- The last `k` digits of a number, with zeros before it. -/
def places : ℕ → ℕ → List UInt8
  | 0, _ => []
  | k + 1, n => digitChar (n / 10 ^ k) :: places k (n % 10 ^ k)

@[simp] theorem length_places (k n : ℕ) : (places k n).length = k := by
  induction k generalizing n with
  | zero => rfl
  | succ k ih => rw [places, List.length_cons, ih]

theorem isDigit_of_mem_places {k n : ℕ} {c : UInt8} (hn : n < 10 ^ k) (hc : c ∈ places k n) : isDigit c = true := by
  induction k generalizing n with
  | zero => exact absurd hc List.not_mem_nil
  | succ k ih =>
    rcases List.mem_cons.mp hc with rfl | hc
    · exact isDigit_digitChar (Nat.div_lt_of_lt_mul (by rwa [← pow_succ]))
    · exact ih (Nat.mod_lt _ (Nat.pow_pos (by decide))) hc

theorem places_concat {k n : ℕ} (hn : n < 10 ^ (k + 1)) : places (k + 1) n = places k (n / 10) ++ [digitChar (n % 10)] := by
  induction k generalizing n with
  | zero =>
    rw [zero_add, pow_one] at hn
    rw [places, places, pow_zero, Nat.div_one, Nat.mod_eq_of_lt hn]
    rfl
  | succ k ih =>
    have hpow : 10 ^ (k + 1) = 10 * 10 ^ k := by rw [pow_succ, Nat.mul_comm]
    have hmod : n % 10 ^ (k + 1) / 10 = n / 10 % 10 ^ k := by rw [hpow, Nat.mod_mul_right_div_self]
    have hlast : n % 10 ^ (k + 1) % 10 = n % 10 := by rw [hpow, Nat.mod_mul_right_mod]
    rw [places, ih (Nat.mod_lt _ (Nat.pow_pos (by decide))), hmod, hlast, places, Nat.div_div_eq_div_mul, ← hpow, List.cons_append]

theorem ofDigitChars_append (l : List UInt8) (c : UInt8) : ofDigitChars (l ++ [c]) = ofDigitChars l * 10 + (c.toNat - 48) := by
  rw [ofDigitChars, List.foldl_append]
  rfl

theorem ofDigitChars_cons (c : UInt8) (l : List UInt8) : ofDigitChars (c :: l) = (c.toNat - 48) * 10 ^ l.length + ofDigitChars l := by
  induction l using List.reverseRecOn with
  | nil => simp [ofDigitChars]
  | append_singleton l d ih =>
    rw [← List.cons_append, ofDigitChars_append, ih, ofDigitChars_append, List.length_append, List.length_singleton, pow_succ]
    ring

theorem ofDigitChars_lt {l : List UInt8} (h : ∀ c ∈ l, isDigit c = true) : ofDigitChars l < 10 ^ l.length := by
  induction l with
  | nil => exact Nat.one_pos
  | cons c l ih =>
    obtain ⟨hc, hl⟩ := List.forall_mem_cons.mp h
    have hlt := ih hl
    have hdigit : c.toNat - 48 ≤ 9 := by
      simp only [isDigit, decide_eq_true_eq] at hc
      omega
    rw [ofDigitChars_cons, List.length_cons, pow_succ]
    calc (c.toNat - 48) * 10 ^ l.length + ofDigitChars l < 9 * 10 ^ l.length + 10 ^ l.length :=
          Nat.add_lt_add_of_le_of_lt (Nat.mul_le_mul_right _ hdigit) hlt
      _ = 10 ^ l.length * 10 := by ring

theorem ofDigitChars_places {k n : ℕ} (hn : n < 10 ^ k) : ofDigitChars (places k n) = n := by
  induction k generalizing n with
  | zero =>
    rw [pow_zero] at hn
    exact (Nat.lt_one_iff.mp hn).symm
  | succ k ih =>
    have hdiv : n / 10 ^ k < 10 := Nat.div_lt_of_lt_mul (by rwa [← pow_succ])
    rw [places, ofDigitChars_cons, toNat_digitChar hdiv, length_places, ih (Nat.mod_lt _ (Nat.pow_pos (by decide))), Nat.add_sub_cancel_left,
      Nat.mul_comm]
    exact Nat.div_add_mod n _

/-! ## Hexadecimal digits -/

/-- The digit of a number below 16. -/
def toHexChar (n : ℕ) (wantUpperCase : Bool) : UInt8 :=
  if n < 10 then UInt8.ofNat (48 + n) else UInt8.ofNat ((if wantUpperCase then 65 else 97) + (n - 10))

def fromHexChar (c : UInt8) : Option ℕ :=
  if 48 ≤ c.toNat ∧ c.toNat ≤ 57 then some (c.toNat - 48)
  else if 65 ≤ c.toNat ∧ c.toNat ≤ 70 then some (c.toNat - 65 + 10)
  else if 97 ≤ c.toNat ∧ c.toNat ≤ 102 then some (c.toNat - 97 + 10)
  else none

/-- The two digits of a byte. -/
def hexPair (wantUpperCase : Bool) (b : UInt8) : List UInt8 :=
  [toHexChar (b.toNat / 16) wantUpperCase, toHexChar (b.toNat % 16) wantUpperCase]

def printHex (wantUpperCase : Bool) (l : List UInt8) : List UInt8 := l.flatMap (hexPair wantUpperCase)

/-- A byte of its two digits. -/
def ofHexPair (hi lo : UInt8) : Option UInt8 :=
  match fromHexChar hi, fromHexChar lo with
  | some hi, some lo => some (UInt8.ofNat (hi * 16 + lo))
  | _, _ => none

/-- Pairs of digits, and nothing else. -/
def fromHex : List UInt8 → Option (List UInt8)
  | [] => some []
  | [_] => none
  | hi :: lo :: rest => (ofHexPair hi lo).bind fun b => (fromHex rest).map (b :: ·)

theorem fromHexChar_toHexChar {n : ℕ} (h : n < 16) (wantUpperCase : Bool) : fromHexChar (toHexChar n wantUpperCase) = some n := by
  interval_cases n <;> cases wantUpperCase <;> decide

theorem ofHexPair_hexPair (wantUpperCase : Bool) (b : UInt8) :
    ofHexPair (toHexChar (b.toNat / 16) wantUpperCase) (toHexChar (b.toNat % 16) wantUpperCase) = some b := by
  have hb := b.toNat_lt
  unfold ofHexPair
  rw [fromHexChar_toHexChar (by omega), fromHexChar_toHexChar (by omega)]
  dsimp only
  rw [Nat.div_add_mod', UInt8.ofNat_toNat]

/-- **Bytes are read off their digits.** -/
theorem fromHex_printHex (wantUpperCase : Bool) (l : List UInt8) : fromHex (printHex wantUpperCase l) = some l := by
  induction l with
  | nil => rfl
  | cons b l ih =>
    change fromHex (_ :: _ :: printHex wantUpperCase l) = _
    rw [fromHex, ofHexPair_hexPair, Option.bind_some, ih]
    rfl

/-! ## Percent-encoding -/

section Escape

variable (unreserved : UInt8 → Bool)

def percent : UInt8 := 37

def escape (l : List UInt8) : List UInt8 := l.flatMap fun c => if unreserved c then [c] else percent :: hexPair true c

/-- A percent sign that two digits do not follow stands for itself, and the two characters after it are copied too. -/
def unescape : List UInt8 → List UInt8
  | c :: hi :: lo :: rest =>
    if c = percent then
      match ofHexPair hi lo with
      | some b => b :: unescape rest
      | none => c :: hi :: lo :: unescape rest
    else c :: unescape (hi :: lo :: rest)
  | l => l

variable {unreserved}

theorem unescape_cons_of_ne {c : UInt8} (hc : c ≠ percent) (l : List UInt8) : unescape (c :: l) = c :: unescape l := by
  match l with
  | [] => rfl
  | [_] => rfl
  | hi :: lo :: rest => rw [unescape, if_neg hc]

theorem unescape_hexPair (b : UInt8) (l : List UInt8) : unescape (percent :: hexPair true b ++ l) = b :: unescape l := by
  change unescape (percent :: _ :: _ :: l) = _
  rw [unescape, if_pos rfl, ofHexPair_hexPair]

/-- **An escaped text** is restored, and put before what follows it. -/
theorem unescape_escape_append (h : unreserved percent = false) (l rest : List UInt8) :
    unescape (escape unreserved l ++ rest) = l ++ unescape rest := by
  induction l with
  | nil => rfl
  | cons c l ih =>
    have hcons : escape unreserved (c :: l) ++ rest =
        (if unreserved c then [c] else percent :: hexPair true c) ++ (escape unreserved l ++ rest) := by
      simp [escape]
    rw [hcons]
    by_cases hc : unreserved c = true
    · have hne : c ≠ percent := by
        rintro rfl
        rw [h] at hc
        cases hc
      rw [if_pos hc, List.singleton_append, unescape_cons_of_ne hne, ih]
      rfl
    · rw [if_neg hc, unescape_hexPair, ih]
      rfl

theorem unescape_escape (h : unreserved percent = false) (l : List UInt8) : unescape (escape unreserved l) = l := by
  have happend := unescape_escape_append h l []
  rwa [List.append_nil, show unescape [] = [] from rfl, List.append_nil] at happend

theorem mem_escape {l : List UInt8} {c : UInt8} (hc : c ∈ escape unreserved l) :
    unreserved c = true ∨ c = percent ∨ ∃ n < 16, c = toHexChar n true := by
  obtain ⟨b, -, hc⟩ := List.mem_flatMap.mp hc
  have hb := b.toNat_lt
  split_ifs at hc with hun
  · obtain rfl := List.mem_singleton.mp hc
    exact .inl hun
  · rcases List.mem_cons.mp hc with rfl | hc
    · exact .inr (.inl rfl)
    · rcases List.mem_cons.mp hc with rfl | hc
      · exact .inr (.inr ⟨b.toNat / 16, by omega, rfl⟩)
      · obtain rfl := List.mem_singleton.mp hc
        exact .inr (.inr ⟨b.toNat % 16, by omega, rfl⟩)

end Escape

end TextLib
