import Ns3Ndn.NameSuccessor
import Ns3Ndn.Face.LpPacket

/-!
# The two ways of comparing components, and the range of a prefix

`Component::compare` of `ndn-cxx/name-component.cpp` compares the encodings of two components if both have one, and else
their types, their sizes and their values. Differences of sizes are of the type `int` there, as are those of the numbers of
components in `Name::compare`.

* `SizesFit`, `CountsFit`: the differences that decide are not changed by the conversion to `int`;
* **`ordered_iff`**: the two comparisons agree, and a prefix and its successor bound the names below the prefix.
-/

namespace Ns3Ndn

def signInt (x y : ℕ) : Ordering := Ord.compare (((x : ℤ) - y).bmod (2 ^ 32)) 0

theorem signInt_self (x : ℕ) : signInt x x = .eq := by
  unfold signInt
  rw [sub_self]
  rfl

theorem signInt_of_lt {x y : ℕ} (h : y < x) :
    (signInt x y = .lt ↔ 2 ^ 31 ≤ (x - y) % 2 ^ 32) ∧ (signInt x y = .eq ↔ (x - y) % 2 ^ 32 = 0) ∧
      (signInt y x = .gt ↔ 2 ^ 31 < (x - y) % 2 ^ 32) ∧ (signInt y x = .eq ↔ (x - y) % 2 ^ 32 = 0) := by
  unfold signInt
  rw [compare_lt_iff_lt, compare_eq_iff_eq, compare_gt_iff_gt, compare_eq_iff_eq, Int.bmod_def, Int.bmod_def]
  refine ⟨?_, ?_, ?_, ?_⟩ <;> split_ifs <;> omega

/-! ## Components -/

namespace Component

def writeVarNumber (n : ℕ) : Bytes :=
  if n < 253 then [UInt8.ofNat n]
  else if n ≤ 0xFFFF then 253 :: Tlv.toBytes 2 n
  else if n ≤ 0xFFFFFFFF then 254 :: Tlv.toBytes 4 n
  else 255 :: Tlv.toBytes 8 n

/-- `wireEncode`. -/
def wireEncode (c : Component) : Bytes := writeVarNumber c.type ++ (writeVarNumber c.value.length ++ c.value)

def compareWire (a b : Component) : Ordering := memcmp a.wireEncode b.wireEncode

/-- The comparison of the fields. There is no result when it reads beyond the end of a value. -/
def compareFields (a b : Component) : Option Ordering :=
  if signInt a.type b.type ≠ .eq then some (signInt a.type b.type)
  else if signInt a.value.length b.value.length ≠ .eq then some (signInt a.value.length b.value.length)
  else if a.value.length = 0 then some .eq
  else if b.value.length < a.value.length then none
  else some (memcmp a.value (b.value.take a.value.length))

/-! ### Encodings -/

theorem memcmp_cons (a b : UInt8) (x y : Bytes) :
    memcmp (a :: x) (b :: y) = (Ord.compare a.toNat b.toNat).then (memcmp x y) := rfl

theorem memcmp_cons_self (a : UInt8) (x y : Bytes) : memcmp (a :: x) (a :: y) = memcmp x y := by
  rw [memcmp_cons, compare_eq_iff_eq.mpr rfl]
  rfl

theorem compare_add_mul {B a a' c c' : ℕ} (ha : a < B) (ha' : a' < B) :
    Ord.compare (a + B * c) (a' + B * c') = (Ord.compare c c').then (Ord.compare a a') := by
  rcases lt_trichotomy c c' with hlt | rfl | hgt
  · have hmul : B * (c + 1) ≤ B * c' := Nat.mul_le_mul_left B hlt
    rw [Nat.mul_add] at hmul
    rw [compare_lt_iff_lt.mpr hlt, compare_lt_iff_lt.mpr (by omega)]
    rfl
  · rw [compare_eq_iff_eq.mpr (rfl : c = c)]
    change _ = Ord.compare a a'
    rcases lt_trichotomy a a' with h | rfl | h
    · rw [compare_lt_iff_lt.mpr h, compare_lt_iff_lt.mpr (by omega)]
    · rw [compare_eq_iff_eq.mpr rfl, compare_eq_iff_eq.mpr rfl]
    · rw [compare_gt_iff_gt.mpr h, compare_gt_iff_gt.mpr (by omega)]
  · have hmul : B * (c' + 1) ≤ B * c := Nat.mul_le_mul_left B hgt
    rw [Nat.mul_add] at hmul
    rw [compare_gt_iff_gt.mpr hgt, compare_gt_iff_gt.mpr (by omega)]
    rfl

theorem memcmp_toBytes_mod (size m n : ℕ) (x y : Bytes) : memcmp (Tlv.toBytes size m ++ x) (Tlv.toBytes size n ++ y) =
    (Ord.compare (m % 256 ^ size) (n % 256 ^ size)).then (memcmp x y) := by
  induction size with
  | zero =>
    rw [pow_zero, Nat.mod_one, Nat.mod_one, compare_eq_iff_eq.mpr rfl]
    rfl
  | succ size ih =>
    have hbyte : ∀ k : ℕ, (UInt8.ofNat (k / 256 ^ size)).toNat = k / 256 ^ size % 256 := fun k => by simp
    have hpos : 0 < 256 ^ size := Nat.pow_pos (by decide)
    rw [Tlv.toBytes, Tlv.toBytes, List.cons_append, List.cons_append, memcmp_cons, ih, hbyte, hbyte, pow_succ, Nat.mod_mul,
      Nat.mod_mul, compare_add_mul (Nat.mod_lt _ hpos) (Nat.mod_lt _ hpos), Ordering.then_assoc]

theorem memcmp_toBytes {size m n : ℕ} (hm : m < 256 ^ size) (hn : n < 256 ^ size) (x y : Bytes) :
    memcmp (Tlv.toBytes size m ++ x) (Tlv.toBytes size n ++ y) = (Ord.compare m n).then (memcmp x y) := by
  rw [memcmp_toBytes_mod, Nat.mod_eq_of_lt hm, Nat.mod_eq_of_lt hn]

/-- **Numbers are ordered as their encodings.** -/
theorem memcmp_writeVarNumber {m n : ℕ} (hm : m < 2 ^ 64) (hn : n < 2 ^ 64) (x y : Bytes) :
    memcmp (writeVarNumber m ++ x) (writeVarNumber n ++ y) = (Ord.compare m n).then (memcmp x y) := by
  have hbyte : ∀ k : ℕ, k < 253 → (UInt8.ofNat k).toNat = k := fun k hk => by
    rw [UInt8.toNat_ofNat']
    omega
  -- encodings of different sizes differ in their first bytes
  have hfirst : ∀ {a b : UInt8} {l r : Bytes}, a.toNat < b.toNat → m < n →
      memcmp (a :: l ++ x) (b :: r ++ y) = (Ord.compare m n).then (memcmp x y) := by
    intro a b l r hab hmn
    rw [List.cons_append, List.cons_append, memcmp_cons, compare_lt_iff_lt.mpr hab, compare_lt_iff_lt.mpr hmn]
    rfl
  have hfirst' : ∀ {a b : UInt8} {l r : Bytes}, b.toNat < a.toNat → n < m →
      memcmp (a :: l ++ x) (b :: r ++ y) = (Ord.compare m n).then (memcmp x y) := by
    intro a b l r hab hmn
    rw [List.cons_append, List.cons_append, memcmp_cons, compare_gt_iff_gt.mpr hab, compare_gt_iff_gt.mpr hmn]
    rfl
  have hsame : ∀ {a : UInt8} {size : ℕ}, m < 256 ^ size → n < 256 ^ size →
      memcmp (a :: Tlv.toBytes size m ++ x) (a :: Tlv.toBytes size n ++ y) = (Ord.compare m n).then (memcmp x y) := by
    intro a size hm hn
    rw [List.cons_append, List.cons_append, memcmp_cons_self, memcmp_toBytes hm hn]
  unfold writeVarNumber
  by_cases hm₁ : m < 253
  · by_cases hn₁ : n < 253
    · simp only [hm₁, hn₁, if_true]
      rw [List.singleton_append, List.singleton_append, memcmp_cons, hbyte m hm₁, hbyte n hn₁]
    · simp only [hm₁, hn₁, if_true, if_false]
      split_ifs <;> exact hfirst (by rw [hbyte m hm₁]; exact hm₁.trans_le (by decide)) (by omega)
  · by_cases hn₁ : n < 253
    · simp only [hm₁, hn₁, if_true, if_false]
      split_ifs <;> exact hfirst' (by rw [hbyte n hn₁]; exact hn₁.trans_le (by decide)) (by omega)
    · simp only [hm₁, hn₁, if_false]
      split_ifs
      · exact hsame (by omega) (by omega)
      · exact hfirst (by decide) (by omega)
      · exact hfirst (by decide) (by omega)
      · exact hfirst' (by decide) (by omega)
      · exact hsame (by omega) (by omega)
      · exact hfirst (by decide) (by omega)
      · exact hfirst' (by decide) (by omega)
      · exact hfirst' (by decide) (by omega)
      · exact hsame (by omega) (by omega)

/-- **The order of the encodings** is the canonical order. -/
theorem compareWire_eq {a b : Component} (ha : a.type < 2 ^ 64 ∧ a.value.length < 2 ^ 64)
    (hb : b.type < 2 ^ 64 ∧ b.value.length < 2 ^ 64) : compareWire a b = a.compare b := by
  unfold compareWire wireEncode
  rw [memcmp_writeVarNumber ha.1 hb.1, memcmp_writeVarNumber ha.2 hb.2]
  rfl

/-! ### Fields -/

/-- The difference of the sizes of two components of one type has the right sign as an `int`. -/
def SizesFit (a b : Component) : Prop :=
  a.type = b.type → b.value.length < a.value.length →
    0 < (a.value.length - b.value.length) % 2 ^ 32 ∧ (a.value.length - b.value.length) % 2 ^ 32 < 2 ^ 31

instance (a b : Component) : Decidable (SizesFit a b) := inferInstanceAs (Decidable (_ → _ → _ ∧ _))

theorem signInt_of_small {x y : ℕ} (hx : x < 2 ^ 31) (hy : y < 2 ^ 31) : signInt x y = Ord.compare x y := by
  rcases lt_trichotomy x y with h | rfl | h
  · have hsign := signInt_of_lt h
    rw [compare_lt_iff_lt.mpr h]
    cases hs : signInt x y with
    | lt => rfl
    | eq => have := hsign.2.2.2.mp hs; omega
    | gt => have := hsign.2.2.1.mp hs; omega
  · rw [signInt_self, compare_eq_iff_eq.mpr rfl]
  · have hsign := signInt_of_lt h
    rw [compare_gt_iff_gt.mpr h]
    cases hs : signInt x y with
    | lt => have := hsign.1.mp hs; omega
    | eq => have := hsign.2.1.mp hs; omega
    | gt => rfl

section Fields

variable {a b : Component}

theorem compareFields_of_type_ne (ha : a.type < 2 ^ 31) (hb : b.type < 2 ^ 31) (h : a.type ≠ b.type) :
    compareFields a b = some (a.compare b) := by
  have hne : Ord.compare a.type b.type ≠ .eq := fun heq => h (compare_eq_iff_eq.mp heq)
  unfold compareFields Component.compare
  rw [signInt_of_small ha hb, if_pos hne]
  cases hc : Ord.compare a.type b.type with
  | lt => rfl
  | eq => exact absurd hc hne
  | gt => rfl

theorem compareFields_of_length_eq (htype : a.type = b.type) (hlen : a.value.length = b.value.length) :
    compareFields a b = some (a.compare b) := by
  unfold compareFields Component.compare
  rw [htype, hlen, signInt_self, signInt_self, compare_eq_iff_eq.mpr rfl, compare_eq_iff_eq.mpr rfl, if_neg (by simp),
    if_neg (by simp), if_neg (lt_irrefl _), List.take_length]
  split_ifs with hnil
  · rw [List.length_eq_zero_iff.mp hnil, List.length_eq_zero_iff.mp (hlen.trans hnil)]
    rfl
  · rfl

theorem compareFields_of_longer (htype : a.type = b.type) (hlt : b.value.length < a.value.length) :
    (compareFields a b = some .gt ↔
      0 < (a.value.length - b.value.length) % 2 ^ 32 ∧ (a.value.length - b.value.length) % 2 ^ 32 < 2 ^ 31) ∧
    (0 < (a.value.length - b.value.length) % 2 ^ 32 ∧ (a.value.length - b.value.length) % 2 ^ 32 < 2 ^ 31 →
      compareFields b a = some .lt) := by
  have hsign := signInt_of_lt hlt
  unfold compareFields
  rw [htype, signInt_self]
  simp only [ne_eq, not_true_eq_false, if_false]
  constructor
  · cases hs : signInt a.value.length b.value.length with
    | lt =>
      have := hsign.1.mp hs
      simp only [reduceCtorEq, not_false_eq_true, if_true, Option.some.injEq, false_iff]
      omega
    | eq =>
      have := hsign.2.1.mp hs
      have hpos : a.value.length ≠ 0 := by omega
      simp only [not_true_eq_false, if_false, hpos, hlt, if_true, reduceCtorEq, false_iff]
      omega
    | gt =>
      have hlt' : ¬ 2 ^ 31 ≤ (a.value.length - b.value.length) % 2 ^ 32 := fun h => by
        rw [hsign.1.mpr h] at hs
        cases hs
      have hne : (a.value.length - b.value.length) % 2 ^ 32 ≠ 0 := fun h => by
        rw [hsign.2.1.mpr h] at hs
        cases hs
      simp only [reduceCtorEq, not_false_eq_true, if_true, true_iff]
      omega
  · rintro ⟨hpos, hsmall⟩
    cases hs : signInt b.value.length a.value.length with
    | lt => rfl
    | eq => have := hsign.2.2.2.mp hs; omega
    | gt => have := hsign.2.2.1.mp hs; omega

/-- **The fields** are compared as in the canonical order when the difference of sizes fits. -/
theorem compareFields_iff (ha : a.type < 2 ^ 31) (hb : b.type < 2 ^ 31) :
    compareFields a b = some (a.compare b) ∧ compareFields b a = some (b.compare a) ↔ SizesFit a b ∧ SizesFit b a := by
  by_cases htype : a.type = b.type
  · have hcompare : ∀ {x y : Component}, x.type = y.type → y.value.length < x.value.length →
        x.compare y = .gt ∧ y.compare x = .lt := by
      intro x y hxy hlt
      unfold Component.compare
      rw [hxy, compare_eq_iff_eq.mpr rfl, compare_gt_iff_gt.mpr hlt, compare_lt_iff_lt.mpr hlt]
      exact ⟨rfl, rfl⟩
    have hlonger : ∀ {x y : Component}, x.type = y.type → y.value.length < x.value.length →
        (compareFields x y = some (x.compare y) ∧ compareFields y x = some (y.compare x) ↔ SizesFit x y ∧ SizesFit y x) := by
      intro x y hxy hlt
      obtain ⟨hgt, hback⟩ := compareFields_of_longer hxy hlt
      rw [(hcompare hxy hlt).1, (hcompare hxy hlt).2, hgt]
      constructor
      · rintro ⟨hfit, -⟩
        exact ⟨fun _ _ => hfit, fun _ h => absurd h hlt.asymm⟩
      · rintro ⟨hfit, -⟩
        exact ⟨hfit hxy hlt, hback (hfit hxy hlt)⟩
    rcases lt_trichotomy a.value.length b.value.length with hlt | heq | hlt
    · rw [and_comm, hlonger htype.symm hlt, and_comm]
    · have hfit : SizesFit a b ∧ SizesFit b a := ⟨fun _ h => by omega, fun _ h => by omega⟩
      exact iff_of_true ⟨compareFields_of_length_eq htype heq, compareFields_of_length_eq htype.symm heq.symm⟩ hfit
    · exact hlonger htype hlt
  · exact iff_of_true ⟨compareFields_of_type_ne ha hb htype, compareFields_of_type_ne hb ha (Ne.symm htype)⟩
      ⟨fun h => absurd h htype, fun h => absurd h.symm htype⟩

end Fields

/-- `Component::compare`, of two components that both have an encoding or not. -/
def compareWith (wired : Bool) (a b : Component) : Option Ordering :=
  if wired then some (compareWire a b) else compareFields a b

theorem memcmp_swap (l r : Bytes) : memcmp l r = (memcmp r l).swap := by
  induction l generalizing r with
  | nil => cases r <;> rfl
  | cons a l ih =>
    cases r with
    | nil => rfl
    | cons b r => rw [memcmp_cons, memcmp_cons, Ordering.swap_then, ← ih, @Std.OrientedCmp.eq_swap _ Ord.compare]

theorem compare_swap (a b : Component) : a.compare b = (b.compare a).swap := by
  unfold Component.compare
  rw [Ordering.swap_then, Ordering.swap_then, ← memcmp_swap, ← @Std.OrientedCmp.eq_swap _ Ord.compare,
    ← @Std.OrientedCmp.eq_swap _ Ord.compare]

end Component

/-! ## Names -/

namespace Name

open Component

/-- `Name::isPrefixOf`. -/
def isPrefixOfName (n m : Name) : Bool := n.length ≤ m.length && (List.zip n m).all fun p => p.1 == p.2

/-- `Name::compare`. Whether two components have encodings is given by their place. -/
def compareInt : (ℕ → Bool) → Name → Name → Option Ordering
  | wired, a :: n, b :: m =>
    match compareWith (wired 0) a b with
    | some .eq => compareInt (fun i => wired (i + 1)) n m
    | r => r
  | _, n, m => some (signInt n.length m.length)

theorem isPrefixOfName_iff {n m : Name} : n.isPrefixOfName m = true ↔ n <+: m := by
  induction n generalizing m with
  | nil => simp [isPrefixOfName]
  | cons a n ih =>
    cases m with
    | nil => simp [isPrefixOfName]
    | cons b m =>
      rw [List.cons_prefix_cons, ← ih]
      simp [isPrefixOfName, and_left_comm]

/-- Names are compared by their components, and where one is a prefix of the other, by their numbers of components. -/
theorem compareInt_eq {n m : Name} (h : ∀ a ∈ n, ∀ b ∈ m, ∀ wired, compareWith wired a b = some (a.compare b))
    (wired : ℕ → Bool) :
    n.compareInt wired m = some (if n <+: m ∨ m <+: n then signInt n.length m.length else Name.compare n m) := by
  induction n generalizing m wired with
  | nil => simp [compareInt]
  | cons a n ih =>
    cases m with
    | nil => simp [compareInt]
    | cons b m =>
      have hab := h a List.mem_cons_self b List.mem_cons_self (wired 0)
      rw [compareInt, hab, Name.compare]
      simp only [List.cons_prefix_cons]
      by_cases heq : a = b
      · subst heq
        have hself : a.compare a = .eq := (Component.compare_eq_iff a a).mpr rfl
        have hlen : signInt (a :: n).length (a :: m).length = signInt n.length m.length := by
          unfold signInt
          simp
        rw [hself, hlen]
        simp only [true_and]
        rw [ih fun x hx y hy => h x (List.mem_cons_of_mem _ hx) y (List.mem_cons_of_mem _ hy)]
        rfl
      · have hne : a.compare b ≠ .eq := fun hcmp => heq ((Component.compare_eq_iff a b).mp hcmp)
        simp only [heq, Ne.symm heq, false_and, or_self, if_false]
        cases hcmp : a.compare b with
        | lt => rfl
        | eq => exact absurd hcmp hne
        | gt => rfl

def compared (n m : Name) : List Component := n ++ m ++ n.getSuccessor

/-- The differences of the numbers of components that are compared have the right signs as an `int`. -/
structure CountsFit (n m : Name) : Prop where
  extension : n <+: m → (m.length - n.length) % 2 ^ 32 ≤ 2 ^ 31
  successor : n.getSuccessor <+: m → (m.length - n.length) % 2 ^ 32 < 2 ^ 31
  isPrefix : m <+: n → (n.length - m.length) % 2 ^ 32 ≠ 2 ^ 31

def Bounds (wired wired' : ℕ → Bool) (n m : Name) : Prop :=
  n.isPrefixOfName m = true ↔
    (∃ o, n.compareInt wired m = some o ∧ o ≠ .gt) ∧ m.compareInt wired' n.getSuccessor = some .lt

theorem length_getSuccessor {n : Name} (hn : n ≠ []) : n.getSuccessor.length = n.length := by
  rcases List.eq_nil_or_concat n with rfl | ⟨n, c, rfl⟩
  · exact absurd rfl hn
  · rw [List.concat_eq_append, getSuccessor_concat, List.length_append, List.length_append]
    rfl

theorem isPrefix_of_lt_getSuccessor {n m : Name} (hn : n ≠ []) (hvalid : n.Valid) (hvalid' : m.Valid) (hle : n ≤ m)
    (hlt : m < n.getSuccessor) : n <+: m := by
  rcases List.eq_nil_or_concat n with rfl | ⟨n, c, rfl⟩
  · exact absurd rfl hn
  rw [List.concat_eq_append] at *
  rw [getSuccessor_concat] at hlt
  have hc : c.Valid := hvalid c (by simp)
  have hle' : n ≤ m := (not_lt.mp (not_lt_of_isPrefix (List.prefix_append n [c]))).trans hle
  obtain ⟨y, rfl⟩ := prefix_of_le_of_le (List.prefix_append n [c.getSuccessor]) hle' hlt.le
  rw [append_lt_append_iff] at hlt
  rw [← not_lt, append_lt_append_iff] at hle
  cases y with
  | nil => exact absurd (List.nil_lt_cons c []) hle
  | cons d z =>
    rw [List.cons_lt_cons_iff] at hlt hle
    have hd : d.Valid := hvalid' d (by simp)
    have hds : d < c.getSuccessor := by
      rcases hlt with hlt | ⟨-, hlt⟩
      · exact hlt
      · exact absurd hlt (List.not_lt_nil z)
    obtain rfl : c = d := by
      by_contra hne
      have hcd : c < d := lt_of_le_of_ne (not_lt.mp fun h => hle (.inl h)) hne
      exact absurd hds (not_lt.mpr ((lt_iff_getSuccessor_le hc hd).mp hcd))
    exact ⟨z, by simp⟩

theorem isPrefix_getSuccessor {n m : Name} (h : m <+: n) (hne : m ≠ n) : m <+: n.getSuccessor := by
  rcases List.eq_nil_or_concat n with rfl | ⟨n, c, rfl⟩
  · exact absurd (List.prefix_nil.mp h) hne
  · rw [List.concat_eq_append] at *
    rw [getSuccessor_concat]
    rcases List.prefix_concat_iff.mp h with heq | h
    · exact absurd heq hne
    · exact h.trans (List.prefix_append _ _)

section Bounds

variable {n m : Name} {wired wired' : ℕ → Bool}

/-- The signs of the comparisons with a prefix and with its successor put a name between the two. -/
def Between (n m : Name) : Prop :=
  (if n <+: m ∨ m <+: n then signInt n.length m.length else Name.compare n m) ≠ .gt ∧
    (if m <+: n.getSuccessor ∨ n.getSuccessor <+: m then signInt m.length n.getSuccessor.length
      else Name.compare m n.getSuccessor) = .lt

/-- The two comparisons of `Bounds`, of components that are compared as in the canonical order. -/
theorem bounds_iff_signs
    (hcmp : ∀ a ∈ n, ∀ b ∈ m, ∀ wired, compareWith wired a b = some (a.compare b))
    (hcmp' : ∀ a ∈ m, ∀ b ∈ n.getSuccessor, ∀ wired, compareWith wired a b = some (a.compare b)) :
    Bounds wired wired' n m ↔ (n <+: m ↔ Between n m) := by
  unfold Bounds Between
  rw [isPrefixOfName_iff, compareInt_eq hcmp, compareInt_eq hcmp']
  simp only [Option.some.injEq, exists_eq_left']

theorem signs_of_isPrefix (hn : n ≠ []) (hvalid : n.Valid) (hpre : n <+: m) :
    Between n m ↔ CountsFit n m := by
  unfold Between
  have hlt : m < n.getSuccessor := lt_getSuccessor_of_isPrefix hn hvalid hpre
  have hle := hpre.length_le
  have hunrelated : ¬ (m <+: n.getSuccessor ∨ n.getSuccessor <+: m) := by
    rintro (h | h)
    · have heq := h.eq_of_length_le ((length_getSuccessor hn).le.trans hle)
      exact absurd hlt (heq ▸ lt_irrefl m)
    · exact not_lt_of_isPrefix h hlt
  have hsign : signInt n.length m.length ≠ .gt ↔ (m.length - n.length) % 2 ^ 32 ≤ 2 ^ 31 := by
    rcases hle.lt_or_eq with hlt | heq
    · rw [ne_eq, (signInt_of_lt hlt).2.2.1, not_lt]
    · rw [heq, signInt_self, Nat.sub_self]
      simp
  rw [if_pos (Or.inl hpre), if_neg hunrelated, (compare_lt_iff m _).mpr hlt, hsign]
  constructor
  · rintro ⟨h, -⟩
    refine ⟨fun _ => h, fun hs => absurd hlt (not_lt_of_isPrefix hs), fun _ => ?_⟩
    rw [Nat.sub_eq_zero_of_le hle]
    decide
  · exact fun h => ⟨h.extension hpre, rfl⟩

theorem signs_of_extension (hn : n ≠ []) (hpre : ¬ n <+: m) (hext : m <+: n) :
    ¬ Between n m ↔ CountsFit n m := by
  unfold Between
  have hlen := length_getSuccessor hn
  have hne : m ≠ n := fun h => hpre (h ▸ List.prefix_refl _)
  have hlt : m.length < n.length := lt_of_le_of_ne hext.length_le fun h => hne (hext.eq_of_length h)
  have hsucc : ¬ n.getSuccessor <+: m := fun h => by
    have := h.length_le
    omega
  have hsign := signInt_of_lt hlt
  have hgt : signInt n.length m.length ≠ .gt ↔
      2 ^ 31 ≤ (n.length - m.length) % 2 ^ 32 ∨ (n.length - m.length) % 2 ^ 32 = 0 := by
    rw [← hsign.1, ← hsign.2.1]
    cases signInt n.length m.length <;> simp
  have hlt' : signInt m.length n.length = .lt ↔
      ¬ (2 ^ 31 < (n.length - m.length) % 2 ^ 32) ∧ ¬ (n.length - m.length) % 2 ^ 32 = 0 := by
    rw [← hsign.2.2.1, ← hsign.2.2.2]
    cases signInt m.length n.length <;> simp
  rw [if_pos (Or.inr hext), if_pos (Or.inl (isPrefix_getSuccessor hext hne)), hlen, hgt, hlt']
  constructor
  · intro h
    exact ⟨fun h' => absurd h' hpre, fun h' => absurd h' hsucc, fun _ => by omega⟩
  · intro h
    have := h.isPrefix hext
    omega

theorem signs_of_apart (hn : n ≠ []) (hvalid : n.Valid) (hvalid' : m.Valid) (hpre : ¬ n <+: m) (hext : ¬ m <+: n) :
    ¬ Between n m ↔ CountsFit n m := by
  unfold Between
  have hlen := length_getSuccessor hn
  rw [if_neg (by simp [hpre, hext]), hlen]
  by_cases hnm : n < m
  · have hge : ¬ m < n.getSuccessor := fun hlt => hpre (isPrefix_of_lt_getSuccessor hn hvalid hvalid' hnm.le hlt)
    have hcmpnm : Name.compare n m ≠ .gt := fun h => ((compare_gt_iff n m).mp h).asymm hnm
    by_cases hs : n.getSuccessor <+: m
    · have hle := hs.length_le
      rw [hlen] at hle
      have hsign : signInt m.length n.length = .lt ↔ 2 ^ 31 ≤ (m.length - n.length) % 2 ^ 32 := by
        rcases hle.lt_or_eq with hlt | heq
        · exact (signInt_of_lt hlt).1
        · rw [heq, signInt_self, Nat.sub_self]
          simp
      rw [if_pos (Or.inr hs), hsign]
      constructor
      · intro h
        exact ⟨fun h' => absurd h' hpre, fun _ => not_le.mp fun h' => h ⟨hcmpnm, h'⟩, fun h' => absurd h' hext⟩
      · intro h hboth
        exact absurd hboth.2 (not_le.mpr (h.successor hs))
    · have hms : ¬ m <+: n.getSuccessor := by
        intro h
        rcases List.eq_nil_or_concat n with rfl | ⟨n, c, rfl⟩
        · exact hn rfl
        rw [List.concat_eq_append] at *
        rw [getSuccessor_concat] at h hs
        rcases List.prefix_concat_iff.mp h with heq | h
        · exact hs (heq ▸ List.prefix_refl _)
        · exact hext (h.trans (List.prefix_append _ _))
      have hno : Name.compare m n.getSuccessor ≠ .lt := fun h => hge ((compare_lt_iff _ _).mp h)
      rw [if_neg (by simp [hs, hms])]
      exact iff_of_true (fun h => hno h.2) ⟨fun h' => absurd h' hpre, fun h' => absurd h' hs, fun h' => absurd h' hext⟩
  · have hne : n ≠ m := fun h => hpre (h ▸ List.prefix_refl _)
    have hmn : m < n := lt_of_le_of_ne (not_lt.mp hnm) hne.symm
    have hs : ¬ n.getSuccessor <+: m := fun h =>
      not_lt_of_isPrefix h (hmn.trans (lt_getSuccessor_of_isPrefix hn hvalid (List.prefix_refl n)))
    exact iff_of_true (fun h => h.1 ((compare_gt_iff n m).mpr hmn))
      ⟨fun h' => absurd h' hpre, fun h' => absurd h' hs, fun h' => absurd h' hext⟩

/-- **The bounds of a prefix**, of components that are compared as in the canonical order. -/
theorem bounds_iff (hn : n ≠ []) (hvalid : n.Valid) (hvalid' : m.Valid)
    (hcmp : ∀ a ∈ n, ∀ b ∈ m, ∀ wired, compareWith wired a b = some (a.compare b))
    (hcmp' : ∀ a ∈ m, ∀ b ∈ n.getSuccessor, ∀ wired, compareWith wired a b = some (a.compare b)) :
    Bounds wired wired' n m ↔ CountsFit n m := by
  rw [bounds_iff_signs hcmp hcmp']
  by_cases hpre : n <+: m
  · rw [← signs_of_isPrefix hn hvalid hpre]
    exact ⟨fun h => h.mp hpre, fun h => ⟨fun _ => h, fun _ => hpre⟩⟩
  · by_cases hext : m <+: n
    · rw [← signs_of_extension hn hpre hext]
      exact ⟨fun h hboth => hpre (h.mpr hboth), fun h => ⟨fun h' => absurd h' hpre, fun h' => absurd h' h⟩⟩
    · rw [← signs_of_apart hn hvalid hvalid' hpre hext]
      exact ⟨fun h hboth => hpre (h.mpr hboth), fun h => ⟨fun h' => absurd h' hpre, fun h' => absurd h' h⟩⟩

/-- The two comparisons of components are one total order, and a prefix and its successor bound the names below the
prefix, whichever comparison is made at each place. -/
structure Ordered (n m : Name) : Prop where
  same : ∀ a ∈ compared n m, ∀ b ∈ compared n m, compareFields a b = some (compareWire a b)
  eq_iff : ∀ a ∈ compared n m, ∀ b ∈ compared n m, compareWire a b = .eq ↔ a = b
  swap : ∀ a ∈ compared n m, ∀ b ∈ compared n m, compareWire a b = (compareWire b a).swap
  trans : ∀ a ∈ compared n m, ∀ b ∈ compared n m, ∀ c ∈ compared n m,
    compareWire a b = .lt → compareWire b c = .lt → compareWire a c = .lt
  bounds : ∀ wired wired', Bounds wired wired' n m

theorem valid_of_mem_compared (hn : n ≠ []) (hvalid : n.Valid) (hvalid' : m.Valid) {c : Component} (hc : c ∈ compared n m) :
    c.Valid := by
  rcases List.mem_append.mp hc with hc | hc
  · rcases List.mem_append.mp hc with hc | hc
    · exact hvalid c hc
    · exact hvalid' c hc
  · rcases List.eq_nil_or_concat n with rfl | ⟨n, d, rfl⟩
    · exact absurd rfl hn
    · rw [List.concat_eq_append] at *
      rw [getSuccessor_concat] at hc
      rcases List.mem_append.mp hc with hc | hc
      · exact hvalid c (List.mem_append_left _ hc)
      · obtain rfl := List.mem_singleton.mp hc
        exact (hvalid d (by simp)).getSuccessor

/-- **The order of names** is as it should be exactly when the differences fit. The sizes of values are of the type
`size_t`. -/
theorem ordered_iff (n m : Name) (hn : n ≠ []) (hvalid : n.Valid) (hvalid' : m.Valid)
    (hsize : ∀ c ∈ compared n m, c.value.length < 2 ^ 64) :
    Ordered n m ↔ (∀ a ∈ compared n m, ∀ b ∈ compared n m, SizesFit a b) ∧ CountsFit n m := by
  have htype : ∀ c ∈ compared n m, c.type < 2 ^ 31 := fun c hc =>
    (valid_of_mem_compared hn hvalid hvalid' hc).max.trans_lt (by decide)
  have hwire : ∀ a ∈ compared n m, ∀ b ∈ compared n m, compareWire a b = a.compare b := fun a ha b hb =>
    compareWire_eq ⟨(htype a ha).trans (by decide), hsize a ha⟩ ⟨(htype b hb).trans (by decide), hsize b hb⟩
  have hn' : ∀ c ∈ n, c ∈ compared n m := fun c hc => by simp [compared, hc]
  have hm' : ∀ c ∈ m, c ∈ compared n m := fun c hc => by simp [compared, hc]
  have hs' : ∀ c ∈ n.getSuccessor, c ∈ compared n m := fun c hc => by simp [compared, hc]
  have hboth : (∀ a ∈ compared n m, ∀ b ∈ compared n m, compareFields a b = some (compareWire a b)) →
      ∀ wired wired', Bounds wired wired' n m ↔ CountsFit n m := by
    intro hsame wired wired'
    have hcmp : ∀ a ∈ compared n m, ∀ b ∈ compared n m, ∀ wired, compareWith wired a b = some (a.compare b) := by
      intro a ha b hb wired
      unfold compareWith
      rw [hsame a ha b hb, hwire a ha b hb, ite_self]
    exact bounds_iff hn hvalid hvalid' (fun a ha b hb => hcmp a (hn' a ha) b (hm' b hb))
      fun a ha b hb => hcmp a (hm' a ha) b (hs' b hb)
  constructor
  · intro h
    refine ⟨fun a ha b hb => ((compareFields_iff (htype a ha) (htype b hb)).mp ⟨?_, ?_⟩).1, ?_⟩
    · rw [h.same a ha b hb, hwire a ha b hb]
    · rw [h.same b hb a ha, hwire b hb a ha]
    · exact (hboth h.same (fun _ => true) fun _ => true).mp (h.bounds _ _)
  · rintro ⟨hfit, hcounts⟩
    have hsame : ∀ a ∈ compared n m, ∀ b ∈ compared n m, compareFields a b = some (compareWire a b) := by
      intro a ha b hb
      rw [hwire a ha b hb]
      exact ((compareFields_iff (htype a ha) (htype b hb)).mpr ⟨hfit a ha b hb, hfit b hb a ha⟩).1
    refine ⟨hsame, fun a ha b hb => ?_, fun a ha b hb => ?_, fun a ha b hb c hc => ?_, fun w w' => (hboth hsame w w').mpr hcounts⟩
    · rw [hwire a ha b hb, Component.compare_eq_iff]
    · rw [hwire a ha b hb, hwire b hb a ha, Component.compare_swap]
    · rw [hwire a ha b hb, hwire b hb c hc, hwire a ha c hc, Component.compare_lt_iff, Component.compare_lt_iff,
        Component.compare_lt_iff]
      exact lt_trans

theorem ordered_below : Ordered [⟨8, [65]⟩] [⟨8, [65]⟩, ⟨8, [255]⟩] :=
  (ordered_iff [⟨8, [65]⟩] [⟨8, [65]⟩, ⟨8, [255]⟩] (by decide) (by decide) (by decide) (by decide)).mpr
    ⟨by decide, by decide, by decide, by decide⟩

theorem not_ordered_of_length {v : Bytes} (hlen : v.length = 2 ^ 31) : ¬ Ordered [⟨8, []⟩] [⟨8, v⟩] := by
  intro h
  have hlt : ([] : Bytes).length < v.length := by
    rw [hlen]
    norm_num
  have hmem : (⟨8, v⟩ : Component) ∈ compared [⟨8, []⟩] [⟨8, v⟩] := by simp [compared]
  have hmem' : (⟨8, []⟩ : Component) ∈ compared [⟨8, []⟩] [⟨8, v⟩] := by simp [compared]
  have hsame := h.same _ hmem _ hmem'
  have hfits : v.length < 2 ^ 64 := by
    rw [hlen]
    norm_num
  rw [compareWire_eq ⟨by norm_num, hfits⟩ ⟨by norm_num, by norm_num⟩] at hsame
  have hgt : Component.compare ⟨8, v⟩ ⟨8, []⟩ = .gt := by
    unfold Component.compare
    rw [compare_eq_iff_eq.mpr rfl, compare_gt_iff_gt.mpr hlt]
    rfl
  rw [hgt] at hsame
  have hdifference := ((compareFields_of_longer (a := ⟨8, v⟩) (b := ⟨8, []⟩) rfl hlt).1.mp hsame).2
  rw [List.length_nil, Nat.sub_zero, hlen] at hdifference
  exact absurd hdifference (by norm_num)

/-- A component of `2^31` bytes comes before one without any when their fields are compared, and after it when their
encodings are. -/
theorem not_ordered_large : ¬ Ordered [⟨8, []⟩] [⟨8, List.replicate (2 ^ 31) 0⟩] :=
  not_ordered_of_length List.length_replicate

end Bounds

end Name

end Ns3Ndn
