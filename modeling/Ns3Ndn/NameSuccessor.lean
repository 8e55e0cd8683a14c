import Ns3Ndn.Name

/-!
# Successors of names

`Component::getSuccessor` and `Name::getSuccessor` of `ndn-cxx/name-component.cpp` and `ndn-cxx/name.cpp`, with
the rules for component types of `ndn-cxx/impl/name-component-types.hpp`. A value is counted up as a number, and
gets a byte more when it overflows; a digest has 32 bytes, and goes over to the next type.

* **`Component.lt_iff_getSuccessor_le`**: there is no component between a component and its successor;
* `Name.lt_getSuccessor_of_isPrefix`: a name is before the successors of its prefixes.
-/

namespace Ns3Ndn

namespace Component

/-! ## Components -/

/-- The types that hold a SHA-256 digest: `ImplicitSha256DigestComponent` and
`ParametersSha256DigestComponent`. -/
def IsDigestType (type : ℕ) : Prop := type = 1 ∨ type = 2

instance (type : ℕ) : Decidable (IsDigestType type) := inferInstanceAs (Decidable (_ ∨ _))

/-- `ensureValid`. -/
structure Valid (c : Component) : Prop where
  min : 1 ≤ c.type
  max : c.type ≤ 65535
  digest : IsDigestType c.type → c.value.length = 32

instance (c : Component) : Decidable c.Valid :=
  decidable_of_iff (1 ≤ c.type ∧ c.type ≤ 65535 ∧ (IsDigestType c.type → c.value.length = 32))
    ⟨fun h => ⟨h.1, h.2.1, h.2.2⟩, fun h => ⟨h.min, h.max, h.digest⟩⟩

/-- The loop of `getSuccessorImpl`: the value plus one, and whether all bytes overflow. -/
def increment : List UInt8 → Bool × List UInt8
  | [] => (true, [])
  | b :: l =>
    match increment l with
    | (false, l) => (false, b :: l)
    | (true, l) => (b + 1 == 0, (b + 1) :: l)

def getSuccessorImpl (value : List UInt8) : Bool × List UInt8 :=
  let (isOverflow, value) := increment value
  (isOverflow, if isOverflow then value ++ [0] else value)

/-- `getMinValue`. -/
def getMinValue (type : ℕ) : List UInt8 := if IsDigestType type then List.replicate 32 0 else []

/-- `Component::getSuccessor`. -/
def getSuccessor (c : Component) : Component :=
  let (isExtended, value) := getSuccessorImpl c.value
  if IsDigestType c.type ∧ isExtended = true then ⟨c.type + 1, getMinValue (c.type + 1)⟩ else ⟨c.type, value⟩

/-! ## Values -/

section Values

def valueLt (v w : List UInt8) : Prop := v.map UInt8.toNat < w.map UInt8.toNat

theorem valueLt_cons {a b : UInt8} {v w : List UInt8} :
    valueLt (a :: v) (b :: w) ↔ a.toNat < b.toNat ∨ a = b ∧ valueLt v w := by
  rw [valueLt, List.map_cons, List.map_cons, List.cons_lt_cons_iff, UInt8.toNat_inj]
  rfl

theorem length_increment (v : List UInt8) : (increment v).2.length = v.length := by
  induction v with
  | nil => rfl
  | cons b v ih =>
    rw [increment]
    rcases hv : increment v with ⟨_ | _, v'⟩
    all_goals
      rw [hv] at ih
      simpa using ih

theorem not_valueLt_replicate_zero {w : List UInt8} {n : ℕ} (h : w.length = n) :
    ¬ valueLt w (List.replicate n 0) := by
  induction w generalizing n with
  | nil =>
    subst h
    exact lt_irrefl _
  | cons a w ih =>
    subst h
    rw [List.length_cons, List.replicate_succ, valueLt_cons]
    rintro (hlt | ⟨-, hlt⟩)
    · exact Nat.not_lt_zero _ hlt
    · exact ih rfl hlt

theorem toNat_add_one (b : UInt8) : (b + 1).toNat = (b.toNat + 1) % 256 := by
  rw [UInt8.toNat_add]
  rfl

/-- A value that overflows is the greatest of its length, and comes to zero. -/
theorem increment_overflow {v : List UInt8} (h : (increment v).1 = true) :
    (increment v).2 = List.replicate v.length 0 ∧ ∀ w, w.length = v.length → ¬ valueLt v w := by
  induction v with
  | nil =>
    refine ⟨rfl, fun w hw => ?_⟩
    rw [List.length_eq_zero_iff.mp hw]
    exact lt_irrefl _
  | cons b v ih =>
    rw [increment] at h ⊢
    rcases hv : increment v with ⟨_ | _, v'⟩
    · rw [hv] at h
      cases h
    · rw [hv] at h ih
      obtain ⟨hzero, hmax⟩ := ih rfl
      have hb : b + 1 = 0 := eq_of_beq h
      have hbyte := toNat_add_one b
      rw [hb] at hbyte
      have hb255 : b.toNat = 255 := by
        have := b.toNat_lt
        change 0 = _ at hbyte
        omega
      refine ⟨?_, fun w hw => ?_⟩
      · change (b + 1) :: v' = _
        rw [hb, List.length_cons, List.replicate_succ]
        exact congrArg _ hzero
      · cases w with
        | nil => cases hw
        | cons a w =>
          rw [valueLt_cons, hb255]
          rintro (hlt | ⟨-, hlt⟩)
          · have := a.toNat_lt
            omega
          · exact hmax w (Nat.succ.inj hw) hlt

theorem increment_not_overflow {v : List UInt8} (h : (increment v).1 = false) {w : List UInt8}
    (hw : w.length = v.length) : valueLt v w ↔ ¬ valueLt w (increment v).2 := by
  induction v generalizing w with
  | nil => cases h
  | cons b v ih =>
    cases w with
    | nil => cases hw
    | cons a w =>
      have hw := Nat.succ.inj hw
      rw [increment] at h ⊢
      rcases hv : increment v with ⟨_ | _, v'⟩
      · rw [hv] at ih
        have ih := ih rfl hw
        dsimp only
        rw [valueLt_cons, valueLt_cons, ih]
        simp only [← UInt8.toNat_inj]
        by_cases hlt : valueLt w v'
        · simp only [hlt, not_true_eq_false, and_false, or_false, and_true]
          omega
        · simp only [hlt, not_false_eq_true, and_true, and_false, or_false]
          omega
      · rw [hv] at h
        obtain ⟨hzero, hmax⟩ := increment_overflow (v := v) (by rw [hv])
        have hv' : v' = List.replicate v.length 0 := by rw [← hzero, hv]
        have hne : b + 1 ≠ 0 := fun hb => by simp [hb] at h
        have hbyte := toNat_add_one b
        have hlt : (b + 1).toNat = b.toNat + 1 := by
          have := b.toNat_lt
          have hne' : (b + 1).toNat ≠ 0 := fun hz => hne (UInt8.toNat_inj.mp hz)
          omega
        have hnot : ¬ valueLt w v' := by
          rw [hv']
          exact not_valueLt_replicate_zero hw
        dsimp only
        rw [valueLt_cons, valueLt_cons, hlt]
        simp only [hmax w hw, hnot, and_false, or_false]
        omega

end Values

/-! ## Successors of components -/

theorem lt_iff {a b : Component} :
    a < b ↔ a.type < b.type ∨ a.type = b.type ∧
      (a.value.length < b.value.length ∨ a.value.length = b.value.length ∧ valueLt a.value b.value) := by
  change a.key < b.key ↔ _
  simp only [key, Prod.Lex.toLex_lt_toLex]
  rfl

theorem getSuccessor_cases (c : Component) :
    ((increment c.value).1 = false ∧ c.getSuccessor = ⟨c.type, (increment c.value).2⟩) ∨
      (increment c.value).1 = true ∧
        (IsDigestType c.type ∧ c.getSuccessor = ⟨c.type + 1, getMinValue (c.type + 1)⟩ ∨
          ¬ IsDigestType c.type ∧ c.getSuccessor = ⟨c.type, List.replicate (c.value.length + 1) 0⟩) := by
  unfold getSuccessor getSuccessorImpl
  cases hoverflow : (increment c.value).1 with
  | false =>
    left
    simp [hoverflow]
  | true =>
    right
    by_cases htype : IsDigestType c.type
    · simp [hoverflow, htype]
    · simp [hoverflow, htype, (increment_overflow hoverflow).1, List.replicate_succ']

/-- **There is no component between a component and its successor.** -/
theorem lt_iff_getSuccessor_le {c d : Component} (hc : c.Valid) (hd : d.Valid) :
    c < d ↔ c.getSuccessor ≤ d := by
  rw [← not_lt, lt_iff, lt_iff]
  rcases c.getSuccessor_cases with ⟨hoverflow, hsucc⟩ | ⟨hoverflow, hcases⟩
  · rw [hsucc]
    dsimp only
    rw [length_increment]
    by_cases hlen : d.value.length = c.value.length
    · rw [increment_not_overflow hoverflow hlen]
      by_cases hlt : valueLt d.value (increment c.value).2
      · simp only [hlt, not_true_eq_false, and_false, or_false, and_true]
        omega
      · simp only [hlt, not_false_eq_true, and_true, and_false, or_false]
        omega
    · simp only [hlen, Ne.symm hlen, false_and, or_false]
      omega
  · obtain ⟨-, hmax⟩ := increment_overflow hoverflow
    -- the value is the greatest of its length
    have hlonger : c.value.length < d.value.length ∨ c.value.length = d.value.length ∧ valueLt c.value d.value ↔
        c.value.length < d.value.length := by
      refine ⟨?_, Or.inl⟩
      rintro (hlt | ⟨heq, hlt⟩)
      · exact hlt
      · exact absurd hlt (hmax _ heq.symm)
    rw [hlonger]
    rcases hcases with ⟨htype, hsucc⟩ | ⟨-, hsucc⟩
    · have hnext : d.type = c.type + 1 → ¬ (d.value.length < (getMinValue (c.type + 1)).length ∨
          d.value.length = (getMinValue (c.type + 1)).length ∧ valueLt d.value (getMinValue (c.type + 1))) := by
        intro heq
        unfold getMinValue
        split_ifs with hdigest
        · rw [List.length_replicate, hd.digest (heq ▸ hdigest)]
          rintro (hlt | ⟨-, hlt⟩)
          · exact lt_irrefl _ hlt
          · exact not_valueLt_replicate_zero (hd.digest (heq ▸ hdigest)) hlt
        · rintro (hlt | ⟨-, hlt⟩)
          · exact Nat.not_lt_zero _ hlt
          · exact List.not_lt_nil _ hlt
      have hlen : c.type = d.type → c.value.length = d.value.length := fun heq =>
        (hc.digest htype).trans (hd.digest (heq ▸ htype)).symm
      rw [hsucc]
      dsimp only
      by_cases heq : d.type = c.type + 1
      · simp only [hnext heq, and_false, or_false]
        omega
      · simp only [heq, false_and, or_false]
        omega
    · rw [hsucc]
      dsimp only
      rw [List.length_replicate]
      by_cases hlen : d.value.length = c.value.length + 1
      · simp only [hlen, not_valueLt_replicate_zero hlen, and_false, or_false]
        omega
      · simp only [hlen, false_and, or_false]
        omega

theorem Valid.getSuccessor {c : Component} (hc : c.Valid) : c.getSuccessor.Valid := by
  rcases c.getSuccessor_cases with ⟨-, hsucc⟩ | ⟨-, ⟨htype, hsucc⟩ | ⟨htype, hsucc⟩⟩
  · rw [hsucc]
    exact ⟨hc.min, hc.max, fun htype => (length_increment _).trans (hc.digest htype)⟩
  · rw [hsucc]
    refine ⟨Nat.succ_pos _, ?_, fun htype' => ?_⟩
    · rcases htype with htype | htype
      all_goals
        dsimp only
        omega
    · dsimp only [getMinValue]
      rw [if_pos htype', List.length_replicate]
  · rw [hsucc]
    exact ⟨hc.min, hc.max, fun htype' => absurd htype' htype⟩

theorem Valid.lt_getSuccessor {c : Component} (hc : c.Valid) : c < c.getSuccessor :=
  (lt_iff_getSuccessor_le hc hc.getSuccessor).mpr le_rfl

end Component

/-! ## Successors of names -/

namespace Name

def Valid (n : Name) : Prop := ∀ c ∈ n, c.Valid

instance (n : Name) : Decidable n.Valid := inferInstanceAs (Decidable (∀ c ∈ n, c.Valid))

/-- `Name::getSuccessor`. -/
def getSuccessor (n : Name) : Name :=
  match n.getLast? with
  | none => [⟨1, List.replicate 32 0⟩]
  | some c => n.dropLast ++ [c.getSuccessor]

theorem getSuccessor_concat (n : Name) (c : Component) : getSuccessor (n ++ [c]) = n ++ [c.getSuccessor] := by
  rw [getSuccessor, List.getLast?_concat, List.dropLast_concat]

theorem append_lt_append_iff {n x y : Name} : n ++ x < n ++ y ↔ x < y := by
  induction n with
  | nil => rfl
  | cons a n ih =>
    rw [List.cons_append, List.cons_append, List.cons_lt_cons_iff, ih]
    simp

/-- **A name is before the successors of its prefixes.** -/
theorem lt_getSuccessor_of_isPrefix {n m : Name} (hn : n ≠ []) (hvalid : n.Valid) (h : n <+: m) :
    m < n.getSuccessor := by
  rcases List.eq_nil_or_concat n with rfl | ⟨n, c, rfl⟩
  · exact absurd rfl hn
  · rw [List.concat_eq_append] at *
    obtain ⟨r, rfl⟩ := h
    have hc : c.Valid := hvalid c (by simp)
    rw [getSuccessor_concat, List.append_assoc, append_lt_append_iff]
    exact List.cons_lt_cons_iff.mpr (Or.inl hc.lt_getSuccessor)

end Name

theorem Component.compare_gt_iff (a b : Component) : Component.compare a b = .gt ↔ b < a := by
  rw [← not_iff_not, not_lt, le_iff_lt_or_eq, ← Component.compare_lt_iff, ← Component.compare_eq_iff]
  cases Component.compare a b <;> simp

theorem Name.compare_eq_iff : ∀ n m : Name, Name.compare n m = .eq ↔ n = m
  | [], [] => by simp [Name.compare]
  | [], _ :: _ => by simp [Name.compare]
  | _ :: _, [] => by simp [Name.compare]
  | a :: n, b :: m => by
    rw [Name.compare, Ordering.then_eq_eq, Component.compare_eq_iff, Name.compare_eq_iff n m, List.cons.injEq]

theorem Name.compare_gt_iff (n m : Name) : Name.compare n m = .gt ↔ m < n := by
  rw [← not_iff_not, not_lt, le_iff_lt_or_eq, ← Name.compare_lt_iff, ← Name.compare_eq_iff]
  cases Name.compare n m <;> simp

end Ns3Ndn
