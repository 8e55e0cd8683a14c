import Mathlib

/-!
# Longest prefix match

A partial function on lists is searched for the longest prefix of a list at which it has a value. The match is
decided by the values between a prefix and the list: `Below f p l` says that `f` has no value at the prefixes
of `l` that are longer than `p`.

* `lpm`, **`lpm_eq_some_iff`**: the search finds the longest prefix;
* `lpm_of_below`, `lpm_update_of_not_below`: what a change at `p` means for the match.
-/

namespace LpmLib

variable {α β : Type} {f : List α → Option β} {l p : List α} {k : ℕ}

/-- The longest prefix of length at most `k` with a value. -/
def lpm (f : List α → Option β) (l : List α) : (k : ℕ) → Option (List α × β)
  | 0 => (f []).map fun b => ([], b)
  | k + 1 =>
    match f (l.take (k + 1)) with
    | some b => some (l.take (k + 1), b)
    | none => lpm f l k

theorem lpm_zero : lpm f l 0 = (f []).map fun b => ([], b) := rfl

theorem lpm_succ : lpm f l (k + 1) = match f (l.take (k + 1)) with
    | some b => some (l.take (k + 1), b)
    | none => lpm f l k := rfl

/-- The prefix `p` of `l` is the longest one with a value, among those of length at most `k`. -/
structure IsLpm (f : List α → Option β) (l : List α) (k : ℕ) (p : List α) (b : β) : Prop where
  isPrefix : p <+: l
  length_le : p.length ≤ k
  value : f p = some b
  longest : ∀ m, m <+: l → m.length ≤ k → p.length < m.length → f m = none

theorem eq_take_of_isPrefix {m : List α} (h : m <+: l) {i : ℕ} (hi : m.length = i) : m = l.take i := by
  rw [← hi]
  exact List.prefix_iff_eq_take.mp h

theorem lpm_congr {g : List α → Option β} (h : ∀ m, m <+: l → m.length ≤ k → f m = g m) :
    lpm f l k = lpm g l k := by
  induction k with
  | zero => rw [lpm_zero, lpm_zero, h [] List.nil_prefix le_rfl]
  | succ k ih =>
    have htake : (l.take (k + 1)).length ≤ k + 1 := by
      rw [List.length_take]
      exact min_le_left _ _
    rw [lpm_succ, lpm_succ, h _ (List.take_prefix _ _) htake, ih fun m hm hk => h m hm (Nat.le_succ_of_le hk)]

/-- Where the match is depends on where there are values. -/
theorem lpm_map_fst_congr {γ : Type} {g : List α → Option γ} (h : ∀ m, (f m).isSome = (g m).isSome) :
    (lpm f l k).map Prod.fst = (lpm g l k).map Prod.fst := by
  induction k with
  | zero =>
    rw [lpm_zero, lpm_zero, Option.map_map, Option.map_map]
    have hnil := h []
    cases hf : f [] <;> cases hg : g [] <;> simp_all
  | succ k ih =>
    rw [lpm_succ, lpm_succ]
    have htake := h (l.take (k + 1))
    cases hf : f (l.take (k + 1)) <;> cases hg : g (l.take (k + 1)) <;> simp_all

theorem lpm_append (l' : List α) (hk : k ≤ l.length) : lpm f (l ++ l') k = lpm f l k := by
  induction k with
  | zero => rfl
  | succ k ih => rw [lpm_succ, lpm_succ, List.take_append_of_le_length hk, ih (Nat.le_of_succ_le hk)]

/-- **The search finds the longest prefix.** -/
theorem lpm_eq_some_iff (hk : k ≤ l.length) {b : β} : lpm f l k = some (p, b) ↔ IsLpm f l k p b := by
  induction k with
  | zero =>
    rw [lpm_zero, Option.map_eq_some_iff]
    constructor
    · rintro ⟨b', hb, heq⟩
      obtain ⟨rfl, rfl⟩ := Prod.mk.inj heq
      exact ⟨List.nil_prefix, le_rfl, hb, fun m _ hm hlt => absurd hlt (Nat.not_lt.mpr hm)⟩
    · rintro ⟨-, hlen, hb, -⟩
      obtain rfl := List.length_eq_zero_iff.mp (Nat.le_zero.mp hlen)
      exact ⟨b, hb, rfl⟩
  | succ k ih =>
    have htake : (l.take (k + 1)).length = k + 1 := List.length_take_of_le hk
    rw [lpm_succ]
    cases hf : f (l.take (k + 1)) with
    | some b' =>
      rw [Option.some_inj, Prod.mk.injEq]
      constructor
      · rintro ⟨rfl, rfl⟩
        refine ⟨List.take_prefix _ _, htake.le, hf, fun m _ hm hlt => ?_⟩
        exact absurd hlt (Nat.not_lt.mpr (hm.trans_eq htake.symm))
      · intro h
        -- a shorter prefix is not the longest
        have hlen : p.length = k + 1 := by
          by_contra hne
          have := h.longest _ (List.take_prefix (k + 1) l) htake.le
            ((lt_of_le_of_ne h.length_le hne).trans_eq htake.symm)
          rw [hf] at this
          cases this
        obtain rfl := eq_take_of_isPrefix h.isPrefix hlen
        exact ⟨rfl, Option.some.inj (hf.symm.trans h.value)⟩
    | none =>
      rw [ih (Nat.le_of_succ_le hk)]
      constructor
      · intro h
        refine ⟨h.isPrefix, Nat.le_succ_of_le h.length_le, h.value, fun m hm hmk hlt => ?_⟩
        rcases Nat.le_succ_iff.mp hmk with hmk | hmk
        · exact h.longest m hm hmk hlt
        · rw [eq_take_of_isPrefix hm hmk]
          exact hf
      · intro h
        refine ⟨h.isPrefix, ?_, h.value, fun m hm hmk hlt => h.longest m hm (Nat.le_succ_of_le hmk) hlt⟩
        refine (Nat.le_succ_iff.mp h.length_le).resolve_right fun hlen => ?_
        have hvalue := h.value
        rw [eq_take_of_isPrefix h.isPrefix hlen, hf] at hvalue
        cases hvalue

theorem lpm_eq_none_iff (hk : k ≤ l.length) :
    lpm f l k = none ↔ ∀ m, m <+: l → m.length ≤ k → f m = none := by
  induction k with
  | zero =>
    rw [lpm_zero, Option.map_eq_none_iff]
    refine ⟨fun h m _ hm => ?_, fun h => h [] List.nil_prefix le_rfl⟩
    rw [List.length_eq_zero_iff.mp (Nat.le_zero.mp hm)]
    exact h
  | succ k ih =>
    have htake : (l.take (k + 1)).length = k + 1 := List.length_take_of_le hk
    rw [lpm_succ]
    cases hf : f (l.take (k + 1)) with
    | some b =>
      refine iff_of_false (by simp) fun h => ?_
      have := h _ (List.take_prefix (k + 1) l) htake.le
      rw [hf] at this
      cases this
    | none =>
      rw [ih (Nat.le_of_succ_le hk)]
      refine ⟨fun h m hm hmk => ?_, fun h m hm hmk => h m hm (Nat.le_succ_of_le hmk)⟩
      rcases Nat.le_succ_iff.mp hmk with hmk | hmk
      · exact h m hm hmk
      · rw [eq_take_of_isPrefix hm hmk]
        exact hf

/-! ## Values below a prefix -/

/-- There is no value at the prefixes of `l` that are longer than its prefix `p`. -/
def Below (f : List α → Option β) (p l : List α) : Prop :=
  p <+: l ∧ ∀ m, m <+: l → p.length < m.length → f m = none

theorem below_self (f : List α → Option β) (p : List α) : Below f p p :=
  ⟨List.prefix_refl p, fun _ hm hlt => absurd hlt (Nat.not_lt.mpr hm.length_le)⟩

theorem below_congr {γ : Type} {g : List α → Option γ} (h : ∀ m, (f m).isSome = (g m).isSome) :
    Below f p l ↔ Below g p l := by
  refine and_congr_right fun _ => forall₃_congr fun m _ _ => ?_
  rw [← Option.not_isSome_iff_eq_none, ← Option.not_isSome_iff_eq_none, h]

theorem below_update [DecidableEq (List α)] (v : Option β) :
    Below (Function.update f p v) p l ↔ Below f p l := by
  refine and_congr_right fun _ => forall₃_congr fun m _ hlt => ?_
  rw [Function.update_of_ne]
  rintro rfl
  exact lt_irrefl _ hlt

theorem below_concat {a : α} : Below f p (l ++ [a]) ↔ p = l ++ [a] ∨ Below f p l ∧ f (l ++ [a]) = none := by
  constructor
  · rintro ⟨hp, hbelow⟩
    rcases List.prefix_concat_iff.mp hp with hp | hp
    · exact Or.inl hp
    · refine Or.inr ⟨⟨hp, fun m hm => hbelow m (hm.trans (List.prefix_append _ _))⟩, ?_⟩
      refine hbelow _ (List.prefix_refl _) ?_
      rw [List.length_append]
      exact Nat.lt_succ_of_le hp.length_le
  · rintro (rfl | ⟨⟨hp, hbelow⟩, hf⟩)
    · exact below_self f _
    · refine ⟨hp.trans (List.prefix_append _ _), fun m hm hlt => ?_⟩
      rcases List.prefix_concat_iff.mp hm with rfl | hm
      · exact hf
      · exact hbelow m hm hlt

/-- **The match is at `p` just if nothing lies below `p`.** -/
theorem isLpm_iff {b : β} : IsLpm f l k p b ↔ f p = some b ∧ Below f p (l.take k) := by
  constructor
  · intro h
    refine ⟨h.value, List.prefix_take_iff.mpr ⟨h.isPrefix, h.length_le⟩, fun m hm hlt => ?_⟩
    obtain ⟨hm, hmk⟩ := List.prefix_take_iff.mp hm
    exact h.longest m hm hmk hlt
  · rintro ⟨hvalue, hp, hbelow⟩
    obtain ⟨hp, hpk⟩ := List.prefix_take_iff.mp hp
    exact ⟨hp, hpk, hvalue, fun m hm hmk => hbelow m (List.prefix_take_iff.mpr ⟨hm, hmk⟩)⟩

/-- With nothing below `p`, the match is that of `p`. -/
theorem lpm_of_below (hk : k ≤ l.length) (h : Below f p (l.take k)) : lpm f l k = lpm f p p.length := by
  obtain ⟨hp, hpk⟩ := List.prefix_take_iff.mp h.1
  have hpre : ∀ m, m <+: l → m.length ≤ p.length → m <+: p := fun m hm hlen =>
    List.prefix_of_prefix_length_le hm hp hlen
  cases hlpm : lpm f p p.length with
  | none =>
    rw [lpm_eq_none_iff le_rfl] at hlpm
    refine (lpm_eq_none_iff hk).mpr fun m hm hmk => ?_
    rcases Nat.lt_or_ge p.length m.length with hlt | hle
    · exact h.2 m (List.prefix_take_iff.mpr ⟨hm, hmk⟩) hlt
    · exact hlpm m (hpre m hm hle) hle
  | some r =>
    obtain ⟨q, b⟩ := r
    rw [lpm_eq_some_iff le_rfl] at hlpm
    refine (lpm_eq_some_iff hk).mpr ⟨hlpm.isPrefix.trans hp, hlpm.length_le.trans hpk, hlpm.value, ?_⟩
    intro m hm hmk hlt
    rcases Nat.lt_or_ge p.length m.length with hlt' | hle
    · exact h.2 m (List.prefix_take_iff.mpr ⟨hm, hmk⟩) hlt'
    · exact hlpm.longest m (hpre m hm hle) hle hlt

/-- **A change at `p` is not seen** where there is a value below `p`, or `p` is no prefix. -/
theorem lpm_update_of_not_below [DecidableEq (List α)] (hk : k ≤ l.length) (h : ¬ Below f p (l.take k))
    (v : Option β) : lpm (Function.update f p v) l k = lpm f l k := by
  by_cases hp : p <+: l.take k
  · obtain ⟨m, hm, hlt, hfm⟩ : ∃ m, m <+: l.take k ∧ p.length < m.length ∧ f m ≠ none := by
      by_contra hnone
      push Not at hnone
      exact h ⟨hp, hnone⟩
    obtain ⟨hm, hmk⟩ := List.prefix_take_iff.mp hm
    have hlonger : ∀ q : List α, p.length < q.length → q ≠ p := by
      rintro q hlt rfl
      exact lt_irrefl _ hlt
    cases hlpm : lpm f l k with
    | none => exact absurd ((lpm_eq_none_iff hk).mp hlpm m hm hmk) hfm
    | some r =>
      obtain ⟨q, b⟩ := r
      rw [lpm_eq_some_iff hk] at hlpm
      have hq : p.length < q.length := by
        by_contra hle
        exact hfm (hlpm.longest m hm hmk (lt_of_le_of_lt (Nat.not_lt.mp hle) hlt))
      refine (lpm_eq_some_iff hk).mpr ⟨hlpm.isPrefix, hlpm.length_le, ?_, fun m' hm' hmk' hlt' => ?_⟩
      · rw [Function.update_of_ne (hlonger q hq)]
        exact hlpm.value
      · rw [Function.update_of_ne (hlonger m' (hq.trans hlt'))]
        exact hlpm.longest m' hm' hmk' hlt'
  · refine lpm_congr fun m hm hmk => Function.update_of_ne ?_ ..
    rintro rfl
    exact hp (List.prefix_take_iff.mpr ⟨hm, hmk⟩)

theorem lpm_update_none [DecidableEq (List α)] (hl : l ≠ []) :
    lpm (Function.update f l none) l l.length = lpm f l.dropLast l.dropLast.length := by
  rcases List.eq_nil_or_concat l with rfl | ⟨l, a, rfl⟩
  · exact absurd rfl hl
  · rw [List.concat_eq_append, List.length_append, List.length_singleton, lpm_succ, List.dropLast_concat]
    have htake : (l ++ [a]).take (l.length + 1) = l ++ [a] := List.take_of_length_le (by simp)
    rw [htake, Function.update_self]
    dsimp only
    rw [lpm_append _ le_rfl]
    refine lpm_congr fun m hm _ => Function.update_of_ne ?_ ..
    rintro rfl
    have := hm.length_le
    rw [List.length_append, List.length_singleton] at this
    omega

end LpmLib
