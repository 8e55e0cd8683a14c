import Ns3Ndn.Lib.Pieces

/-!
# Pieces that are apart

Pieces in order that do not overlap. A new range is trimmed against them: what is there already at its ends is cut off, and
pieces inside of it are dropped.

* `Apart`, `Held`: pieces in order that do not overlap, and the places they hold;
* `trim`, **`trim_spec`**: the pieces left and the range left are apart, and hold what the pieces and the range did.
-/

namespace PieceLib

open SliceLib

variable {α : Type} {l : List (List α × ℕ)} {p q : List α × ℕ} {h t i lo hi n : ℕ}

/-- Pieces in order that do not overlap. -/
structure Apart (l : List (List α × ℕ)) : Prop where
  pairwise : l.Pairwise fun p q => stop p ≤ q.2
  nonempty : ∀ p ∈ l, p.1 ≠ []

/-- A place that a piece has. -/
def Held (l : List (List α × ℕ)) (i : ℕ) : Prop := ∃ p ∈ l, p.2 ≤ i ∧ i < stop p

/-- The number of elements. -/
def total (l : List (List α × ℕ)) : ℕ := (l.map fun p => p.1.length).sum

/-- What is left of a range from `h` to before `t`, and the pieces that are left. -/
def trim (h t : ℕ) : List (List α × ℕ) → ℕ × ℕ × List (List α × ℕ)
  | [] => (h, t, [])
  | p :: rest =>
    if p.2 ≤ t then
      if h < stop p then
        if h < p.2 ∧ stop p < t then trim h t rest
        else
          let r := trim (if p.2 ≤ h then stop p else h) (if t ≤ stop p then p.2 else t) rest
          (r.1, r.2.1, p :: r.2.2)
      else
        let r := trim h t rest
        (r.1, r.2.1, p :: r.2.2)
    else (h, t, p :: rest)

/-- A piece is put before those that begin after it. -/
def insertPiece (p : List α × ℕ) : List (List α × ℕ) → List (List α × ℕ)
  | [] => [p]
  | q :: rest => if p.2 < q.2 then p :: q :: rest else q :: insertPiece p rest

def follow : ℕ → List (List α × ℕ) → ℕ
  | n, [] => n
  | n, p :: rest => if p.2 < n then follow n rest else if n < p.2 then n else follow (stop p) rest

/-! ## Places -/

theorem lt_stop (hp : p.1 ≠ []) : p.2 < stop p := by
  have hpos := List.length_pos_iff.mpr hp
  rw [stop]
  omega

theorem apart_cons : Apart (p :: l) ↔ p.1 ≠ [] ∧ (∀ q ∈ l, stop p ≤ q.2) ∧ Apart l := by
  constructor
  · rintro ⟨hpairwise, hne⟩
    obtain ⟨hfirst, hrest⟩ := List.pairwise_cons.mp hpairwise
    exact ⟨hne p List.mem_cons_self, hfirst, hrest, fun q hq => hne q (List.mem_cons_of_mem p hq)⟩
  · rintro ⟨hp, hfirst, hrest, hne⟩
    exact ⟨List.pairwise_cons.mpr ⟨hfirst, hrest⟩, List.forall_mem_cons.mpr ⟨hp, hne⟩⟩

theorem Apart.sublist {l' : List (List α × ℕ)} (hl : Apart l) (hsub : l'.Sublist l) : Apart l' :=
  ⟨hl.pairwise.sublist hsub, fun p hp => hl.nonempty p (hsub.subset hp)⟩

theorem held_cons : Held (p :: l) i ↔ (p.2 ≤ i ∧ i < stop p) ∨ Held l i := by
  rw [Held, Held, List.exists_mem_cons_iff]

theorem not_held_nil : ¬ Held ([] : List (List α × ℕ)) i := fun ⟨_, hp, _⟩ => absurd hp List.not_mem_nil

theorem Held.le (hl : ∀ p ∈ l, n ≤ p.2) (hi : Held l i) : n ≤ i := by
  obtain ⟨p, hp, hle, -⟩ := hi
  exact (hl p hp).trans hle

/-! ## Trimming -/

theorem trim_beyond (hin : t < p.2) : trim h t (p :: l) = (h, t, p :: l) :=
  if_neg (not_le.mpr hin)

theorem trim_of_lt (hl : ∀ p ∈ l, t < p.2) : trim h t l = (h, t, l) := by
  cases l with
  | nil => rfl
  | cons p rest => exact trim_beyond (hl p List.mem_cons_self)

theorem trim_before (hin : p.2 ≤ t) (hover : stop p ≤ h) :
    trim h t (p :: l) = ((trim h t l).1, (trim h t l).2.1, p :: (trim h t l).2.2) :=
  (if_pos hin).trans (if_neg (not_lt.mpr hover))

theorem trim_inside (hin : p.2 ≤ t) (hover : h < stop p) (hinside : h < p.2 ∧ stop p < t) :
    trim h t (p :: l) = trim h t l :=
  (if_pos hin).trans ((if_pos hover).trans (if_pos hinside))

theorem trim_overlap (hin : p.2 ≤ t) (hover : h < stop p) (hinside : ¬ (h < p.2 ∧ stop p < t)) {h' t' : ℕ}
    (hh : (if p.2 ≤ h then stop p else h) = h') (ht : (if t ≤ stop p then p.2 else t) = t') :
    trim h t (p :: l) = ((trim h' t' l).1, (trim h' t' l).2.1, p :: (trim h' t' l).2.2) := by
  subst hh ht
  exact (if_pos hin).trans ((if_pos hover).trans (if_neg hinside))

theorem trim_sublist (h t : ℕ) (l : List (List α × ℕ)) : (trim h t l).2.2.Sublist l := by
  induction l generalizing h t with
  | nil => exact List.Sublist.refl _
  | cons p rest ih =>
    by_cases hin : p.2 ≤ t
    · by_cases hover : h < stop p
      · by_cases hinside : h < p.2 ∧ stop p < t
        · rw [trim_inside hin hover hinside]
          exact (ih h t).cons p
        · rw [trim_overlap hin hover hinside rfl rfl]
          exact (ih _ _).cons_cons p
      · rw [trim_before hin (not_lt.mp hover)]
        exact (ih h t).cons_cons p
    · rw [trim_beyond (not_le.mp hin)]

theorem trim_first (h t : ℕ) (l : List (List α × ℕ)) :
    (trim h t l).1 = h ∨ ∃ p ∈ l, p.2 ≤ t ∧ (trim h t l).1 = stop p := by
  induction l generalizing h t with
  | nil => exact .inl rfl
  | cons p rest ih =>
    have hrest : ∀ {h' t' : ℕ}, t' ≤ t → (trim h' t' rest).1 = h' ∨ ∃ q ∈ p :: rest, q.2 ≤ t ∧ (trim h' t' rest).1 = stop q :=
      fun ht => (ih _ _).imp_right fun ⟨q, hq, hle, heq⟩ => ⟨q, List.mem_cons_of_mem p hq, hle.trans ht, heq⟩
    rw [trim]
    split_ifs with hin hover hinside hhead htail htail
    · exact hrest le_rfl
    · exact .inr ((hrest hin).elim (fun heq => ⟨p, List.mem_cons_self, hin, heq⟩) id)
    · exact .inr ((hrest le_rfl).elim (fun heq => ⟨p, List.mem_cons_self, hin, heq⟩) id)
    · exact hrest hin
    · exact hrest le_rfl
    · exact hrest le_rfl
    · exact .inl rfl

theorem trim_last (h t : ℕ) (l : List (List α × ℕ)) : (trim h t l).2.1 = t ∨ ∃ p ∈ l, (trim h t l).2.1 = p.2 := by
  induction l generalizing h t with
  | nil => exact .inl rfl
  | cons p rest ih =>
    have hrest : ∀ h' t' : ℕ, (trim h' t' rest).2.1 = t' ∨ ∃ q ∈ p :: rest, (trim h' t' rest).2.1 = q.2 :=
      fun h' t' => (ih h' t').imp_right fun ⟨q, hq, heq⟩ => ⟨q, List.mem_cons_of_mem p hq, heq⟩
    rw [trim]
    split_ifs with hin hover hinside hhead htail htail
    · exact hrest h t
    · exact .inr ((hrest _ _).elim (fun heq => ⟨p, List.mem_cons_self, heq⟩) id)
    · exact hrest _ t
    · exact .inr ((hrest _ _).elim (fun heq => ⟨p, List.mem_cons_self, heq⟩) id)
    · exact hrest _ t
    · exact hrest h t
    · exact .inl rfl

theorem trim_of_le (hl : Apart l) (hle : t ≤ h) : (trim h t l).2.1 ≤ (trim h t l).1 ∧ (trim h t l).2.2 = l := by
  induction l generalizing h t with
  | nil => exact ⟨hle, rfl⟩
  | cons p rest ih =>
    obtain ⟨hp, -, hrest⟩ := apart_cons.mp hl
    have hpos := lt_stop hp
    by_cases hin : p.2 ≤ t
    · by_cases hover : h < stop p
      · have hle' : (if t ≤ stop p then p.2 else t) ≤ if p.2 ≤ h then stop p else h := by
          split_ifs <;> omega
        rw [trim_overlap hin hover (by omega) rfl rfl]
        obtain ⟨hempty, hkept⟩ := ih hrest hle'
        exact ⟨hempty, congrArg (p :: ·) hkept⟩
      · rw [trim_before hin (not_lt.mp hover)]
        obtain ⟨hempty, hkept⟩ := ih hrest hle
        exact ⟨hempty, congrArg (p :: ·) hkept⟩
    · rw [trim_beyond (not_le.mp hin)]
      exact ⟨hle, rfl⟩

/-- Only the end is cut off before pieces that begin after the first place. -/
theorem trim_of_first_lt (hl : Apart l) (hlt : h < t) (hbefore : ∀ p ∈ l, h < p.2) {e : ℕ} (he : e ≤ t)
    (hle : ∀ p ∈ l, e ≤ p.2) : (trim h t l).1 = h ∧ h < (trim h t l).2.1 ∧ e ≤ (trim h t l).2.1 := by
  induction l with
  | nil => exact ⟨rfl, hlt, he⟩
  | cons p rest ih =>
    obtain ⟨hp, hfirst, hrest⟩ := apart_cons.mp hl
    have hpos := lt_stop hp
    have hhp := hbefore p List.mem_cons_self
    by_cases hin : p.2 ≤ t
    · by_cases hinside : h < p.2 ∧ stop p < t
      · rw [trim_inside hin (hhp.trans hpos) hinside]
        exact ih hrest (fun q hq => hbefore q (List.mem_cons_of_mem p hq)) fun q hq => hle q (List.mem_cons_of_mem p hq)
      · rw [trim_overlap hin (hhp.trans hpos) hinside (if_neg (not_le.mpr hhp)) (if_pos (by omega)),
          trim_of_lt fun q hq => hpos.trans_le (hfirst q hq)]
        exact ⟨rfl, hhp, hle p List.mem_cons_self⟩
    · rw [trim_beyond (not_le.mp hin)]
      exact ⟨rfl, hlt, he⟩

/-- What trimming leaves of the pieces and of a range from `h` to before `t`. -/
structure Trimmed (h t : ℕ) (l : List (List α × ℕ)) (r : ℕ × ℕ × List (List α × ℕ)) : Prop where
  first : r.1 < r.2.1 → h ≤ r.1
  last : r.1 < r.2.1 → r.2.1 ≤ t
  apart : r.1 < r.2.1 → ∀ p ∈ r.2.2, stop p ≤ r.1 ∨ r.2.1 ≤ p.2
  held : r.1 < r.2.1 → ∀ i, (Held r.2.2 i ∨ r.1 ≤ i ∧ i < r.2.1) ↔ Held l i ∨ h ≤ i ∧ i < t
  kept : r.2.1 ≤ r.1 → r.2.2 = l
  there : r.2.1 ≤ r.1 → ∀ i, h ≤ i → i < t → Held l i

/-- A piece that the range does not reach. -/
theorem Trimmed.cons {r : ℕ × ℕ × List (List α × ℕ)} (hr : Trimmed h t l r) (hp : stop p ≤ h) :
    Trimmed h t (p :: l) (r.1, r.2.1, p :: r.2.2) := by
  refine ⟨hr.first, hr.last, fun hlt q hq => ?_, fun hlt i => ?_, fun hle => congrArg (p :: ·) (hr.kept hle),
    fun hle i hi hi' => held_cons.mpr (.inr (hr.there hle i hi hi'))⟩
  · rcases List.mem_cons.mp hq with rfl | hq
    · exact .inl (hp.trans (hr.first hlt))
    · exact hr.apart hlt q hq
  · rw [held_cons, held_cons, or_assoc, or_assoc, hr.held hlt i]

/-- **Trimming.** -/
theorem trim_spec (hl : Apart l) (hlt : h < t) : Trimmed h t l (trim h t l) := by
  induction l generalizing h with
  | nil =>
    exact ⟨fun _ => le_rfl, fun _ => le_rfl, fun _ p hp => absurd hp List.not_mem_nil, fun _ i => Iff.rfl,
      fun _ => rfl, fun hle => absurd hle (not_le.mpr hlt)⟩
  | cons p rest ih =>
    obtain ⟨hp, hfirst, hrest⟩ := apart_cons.mp hl
    have hpos := lt_stop hp
    have hbeyond : ∀ q ∈ rest, p.2 < q.2 := fun q hq => hpos.trans_le (hfirst q hq)
    rcases lt_or_ge t p.2 with hin | hin
    · -- the range ends before the piece
      rw [trim_beyond hin]
      have hright : ∀ q ∈ p :: rest, t ≤ q.2 :=
        List.forall_mem_cons.mpr ⟨hin.le, fun q hq => hin.le.trans (hbeyond q hq).le⟩
      exact ⟨fun _ => le_rfl, fun _ => le_rfl, fun _ q hq => .inr (hright q hq), fun _ i => Iff.rfl, fun _ => rfl,
        fun hle => absurd hle (not_le.mpr hlt)⟩
    rcases le_or_gt (stop p) h with hover | hover
    · rw [trim_before hin hover]
      exact (ih hrest hlt).cons hover
    by_cases hinside : h < p.2 ∧ stop p < t
    · -- the piece is inside of the range, of which only the end can be cut off
      rw [trim_inside hin (hinside.1.trans hpos) hinside]
      obtain ⟨hhead, hlast, hstop⟩ := trim_of_first_lt hrest hlt (fun q hq => hinside.1.trans (hbeyond q hq))
        hinside.2.le hfirst
      have hr := ih hrest hlt
      have hlt' : (trim h t rest).1 < (trim h t rest).2.1 := by rwa [hhead]
      refine ⟨hr.first, hr.last, hr.apart, fun _ i => ?_, fun hle => absurd hle (not_le.mpr hlt'),
        fun hle => absurd hle (not_le.mpr hlt')⟩
      rw [hr.held hlt' i, held_cons]
      constructor
      · exact fun hi => hi.imp_left .inr
      · rintro ((⟨hi, hi'⟩ | hi) | hi)
        · exact .inr ⟨by omega, by omega⟩
        · exact .inl hi
        · exact .inr hi
    rcases le_or_gt p.2 h with hhead | hhead
    · rcases le_or_gt t (stop p) with htail | htail
      · -- all of the range is there
        rw [trim_overlap hin hover hinside (if_pos hhead) (if_pos htail), trim_of_lt hbeyond]
        have hempty : ¬ stop p < p.2 := by omega
        exact ⟨fun hlt' => absurd hlt' hempty, fun hlt' => absurd hlt' hempty, fun hlt' => absurd hlt' hempty,
          fun hlt' => absurd hlt' hempty, fun _ => rfl,
          fun _ i hi hi' => held_cons.mpr (.inl ⟨hhead.trans hi, hi'.trans_le htail⟩)⟩
      · -- the beginning of the range is there
        rw [trim_overlap hin hover hinside (if_pos hhead) (if_neg (not_le.mpr htail))]
        have hr := (ih hrest htail).cons (p := p) le_rfl
        refine ⟨fun hlt' => hover.le.trans (hr.first hlt'), hr.last, hr.apart, fun hlt' i => ?_, hr.kept,
          fun hle i hi hi' => ?_⟩
        · rw [hr.held hlt' i, held_cons]
          constructor
          · exact fun hi => hi.imp_right fun hi => ⟨hover.le.trans hi.1, hi.2⟩
          · rintro (hi | ⟨hi, hi'⟩)
            · exact .inl hi
            · rcases lt_or_ge i (stop p) with hshort | hlong
              · exact .inl (.inl ⟨hhead.trans hi, hshort⟩)
              · exact .inr ⟨hlong, hi'⟩
        · rcases lt_or_ge i (stop p) with hshort | hlong
          · exact held_cons.mpr (.inl ⟨hhead.trans hi, hshort⟩)
          · exact hr.there hle i hlong hi'
    · -- the end of the range is there
      have htail : t ≤ stop p := by omega
      rw [trim_overlap hin hover hinside (if_neg (not_le.mpr hhead)) (if_pos htail), trim_of_lt hbeyond]
      refine ⟨fun _ => le_rfl, fun _ => hin, fun _ q hq => ?_, fun _ i => ?_, fun hle => absurd hle (not_le.mpr hhead),
        fun hle => absurd hle (not_le.mpr hhead)⟩
      · rcases List.mem_cons.mp hq with rfl | hq
        · exact .inr le_rfl
        · exact .inr (hbeyond q hq).le
      · rw [held_cons]
        constructor
        · exact fun hi => hi.imp_right fun hi => ⟨hi.1, hi.2.trans_le hin⟩
        · rintro (hi | ⟨hi, hi'⟩)
          · exact .inl hi
          · rcases lt_or_ge i p.2 with hshort | hlong
            · exact .inr ⟨hi, hshort⟩
            · exact .inl (.inl ⟨hlong, hi'.trans_le htail⟩)

theorem Apart.exists_isPiece (hl : Apart l) (back : List α) (hin : ∀ p ∈ l, stop p ≤ back.length) :
    ∃ src : List α, src.length = back.length ∧ ∀ p ∈ l, IsPiece src p := by
  induction l with
  | nil => exact ⟨back, rfl, fun p hp => absurd hp List.not_mem_nil⟩
  | cons p rest ih =>
    obtain ⟨-, hfirst, hrest⟩ := apart_cons.mp hl
    obtain ⟨src, hlength, hpieces⟩ := ih hrest fun q hq => hin q (List.mem_cons_of_mem p hq)
    have hroom : p.2 + p.1.length ≤ src.length := hlength ▸ hin p List.mem_cons_self
    have hlength' := length_overwrite hroom
    refine ⟨overwrite src p.2 p.1, hlength'.trans hlength, List.forall_mem_cons.mpr ⟨⟨?_, ?_⟩, fun q hq => ⟨?_, ?_⟩⟩⟩
    · exact (slice_overwrite_self hroom).symm
    · exact hlength'.symm ▸ hroom
    · rw [slice_overwrite_of_disjoint hroom (.inr (hfirst q hq))]
      exact (hpieces q hq).eq
    · exact hlength'.symm ▸ (hpieces q hq).le

/-! ## Putting a piece in -/

theorem perm_insertPiece (p : List α × ℕ) (l : List (List α × ℕ)) : (insertPiece p l).Perm (p :: l) := by
  induction l with
  | nil => exact List.Perm.refl _
  | cons q rest ih =>
    rw [insertPiece]
    split_ifs
    · exact List.Perm.refl _
    · exact (ih.cons q).trans (List.Perm.swap p q rest)

theorem held_perm {l' : List (List α × ℕ)} (hperm : l.Perm l') : Held l i ↔ Held l' i := by
  simp only [Held, hperm.mem_iff]

theorem apart_insertPiece (hl : Apart l) (hp : p.1 ≠ []) (hapart : ∀ q ∈ l, stop q ≤ p.2 ∨ stop p ≤ q.2) :
    Apart (insertPiece p l) := by
  induction l with
  | nil => exact ⟨List.pairwise_singleton _ p, fun q hq => List.mem_singleton.mp hq ▸ hp⟩
  | cons q rest ih =>
    obtain ⟨hq, hfirst, hrest⟩ := apart_cons.mp hl
    have hpos := lt_stop hp
    have hpos' := lt_stop hq
    have hpq := hapart q List.mem_cons_self
    rw [insertPiece]
    split_ifs with hlt
    · refine apart_cons.mpr ⟨hp, List.forall_mem_cons.mpr ⟨by omega, fun q' hq' => ?_⟩, hl⟩
      have hqq' := hfirst q' hq'
      omega
    · refine apart_cons.mpr ⟨hq, fun q' hq' => ?_, ih hrest fun q' hq' => hapart q' (List.mem_cons_of_mem q hq')⟩
      rcases List.mem_cons.mp ((perm_insertPiece p rest).mem_iff.mp hq') with rfl | hq'
      · omega
      · exact hfirst q' hq'

theorem total_cons (p : List α × ℕ) (l : List (List α × ℕ)) : total (p :: l) = p.1.length + total l := by
  rw [total, List.map_cons, List.sum_cons]
  rfl

theorem total_insertPiece (p : List α × ℕ) (l : List (List α × ℕ)) : total (insertPiece p l) = p.1.length + total l := by
  rw [total, ((perm_insertPiece p l).map _).sum_eq, List.map_cons, List.sum_cons]
  rfl

theorem total_le (hl : Apart l) (hlo : ∀ p ∈ l, lo ≤ p.2) (hhi : ∀ p ∈ l, stop p ≤ hi) (hle : lo ≤ hi) :
    total l ≤ hi - lo := by
  induction l generalizing lo with
  | nil => exact Nat.zero_le _
  | cons p rest ih =>
    obtain ⟨hp, hfirst, hrest⟩ := apart_cons.mp hl
    have hlo' := hlo p List.mem_cons_self
    have hhi' := hhi p List.mem_cons_self
    have hrest' := ih hrest hfirst (fun q hq => hhi q (List.mem_cons_of_mem p hq)) hhi'
    have hlength : stop p = p.2 + p.1.length := rfl
    rw [total_cons]
    omega

/-- **The end of the pieces that follow** is not held, and all before it is. -/
theorem follow_spec (hl : Apart l) (hn : ∀ p ∈ l, p.2 < n → stop p ≤ n) :
    n ≤ follow n l ∧ (∀ i, n ≤ i → i < follow n l → Held l i) ∧ ¬ Held l (follow n l) := by
  induction l generalizing n with
  | nil => exact ⟨le_rfl, fun i hi hi' => absurd hi' (not_lt.mpr hi), not_held_nil⟩
  | cons p rest ih =>
    obtain ⟨hp, hfirst, hrest⟩ := apart_cons.mp hl
    have hpos := lt_stop hp
    rw [follow]
    split_ifs with hlt hgt
    · obtain ⟨hle, hall, hnot⟩ := ih hrest fun q hq => hn q (List.mem_cons_of_mem p hq)
      have hstop := hn p List.mem_cons_self hlt
      refine ⟨hle, fun i hi hi' => held_cons.mpr (.inr (hall i hi hi')), fun hheld => ?_⟩
      rcases held_cons.mp hheld with hheld | hheld
      · omega
      · exact hnot hheld
    · refine ⟨le_rfl, fun i hi hi' => absurd hi' (not_lt.mpr hi), fun hheld => ?_⟩
      have hle := Held.le (List.forall_mem_cons.mpr ⟨le_rfl, fun q hq => hpos.le.trans (hfirst q hq)⟩) hheld
      omega
    · have heq : p.2 = n := by omega
      obtain ⟨hle, hall, hnot⟩ := ih (n := stop p) hrest fun q hq hlt => absurd hlt (not_lt.mpr (hfirst q hq))
      refine ⟨by omega, fun i hi hi' => ?_, fun hheld => ?_⟩
      · rcases lt_or_ge i (stop p) with hshort | hlong
        · exact held_cons.mpr (.inl ⟨heq ▸ hi, hshort⟩)
        · exact held_cons.mpr (.inr (hall i hlong hi'))
      · rcases held_cons.mp hheld with hheld | hheld
        · omega
        · exact hnot hheld

end PieceLib
