import Ns3Ndn.Lib.SortedRange
import Ns3Ndn.NameSuccessor
import Ns3Ndn.Fw.Pit

/-!
# The Content Store

`NFD/daemon/table/cs.cpp` and `cs-entry.cpp`: Data packets in a `std::set`, which are looked up by the name of an
Interest. The set compares names and then digests, and a name that ends with a digest is split before it is
compared. This is the order of full names, unless names have implicit digests in other places than the last.

* `CsEntry.inRange_iff`: which of the entries that can satisfy an Interest are in the range that is looked at;
* **`findImpl_right_iff`**: when a lookup finds the entry with the smallest full name.
-/

namespace Ns3Ndn

/-! ## Entries -/

structure CsEntry where
  data : Data
  isUnsolicited : Bool := false
  freshUntil : ℕ := 0
deriving DecidableEq

namespace CsEntry

def digest (e : CsEntry) : Component := ⟨1, e.data.digest⟩

def name (e : CsEntry) : Name := e.data.name

def fullName (e : CsEntry) : Name := e.data.fullName

def isFresh (e : CsEntry) (now : ℕ) : Bool := now ≤ e.freshUntil

def canSatisfy (e : CsEntry) (now : ℕ) (interest : Interest) : Bool :=
  if ! interest.matchesData e.data then false
  else if interest.mustBeFresh && ! e.isFresh now then false
  else true

def Valid (e : CsEntry) : Prop := e.name.Valid ∧ e.digest.Valid

instance (e : CsEntry) : Decidable e.Valid := inferInstanceAs (Decidable (_ ∧ _))

end CsEntry

def Name.isFullName (name : Name) : Bool := name.getLast?.any Component.isImplicitSha256Digest

def compareQueryWithData (queryName : Name) (e : CsEntry) : Ordering :=
  if queryName.isFullName then
    (Name.compare queryName.dropLast e.name).then
      (Component.compare (queryName.getLastD e.digest) e.digest)
  else (Name.compare queryName e.name).then .lt

def compareDataWithData (lhs rhs : CsEntry) : Ordering :=
  (Name.compare lhs.name rhs.name).then (Component.compare lhs.digest rhs.digest)

/-- The table: a set of entries in the order of `compareDataWithData`. -/
structure CsTable where
  entries : List CsEntry
  sorted : entries.Pairwise fun a b => compareDataWithData a b = .lt
  valid : ∀ e ∈ entries, e.Valid

/-- The Content Store. -/
structure Cs where
  table : CsTable
  shouldServe : Bool := true
  limit : ℕ := 10

namespace CsTable

variable (table : CsTable)

def lowerBound (queryName : Name) : List CsEntry :=
  RangeLib.lowerBound (fun e => compareQueryWithData queryName e == .gt) table.entries

def findPrefixRange (prefixName : Name) : List CsEntry × List CsEntry :=
  (table.lowerBound prefixName, if prefixName = [] then [] else table.lowerBound prefixName.getSuccessor)

end CsTable

/-- `findImpl`. -/
def Cs.findImpl (cs : Cs) (now : ℕ) (interest : Interest) : Option CsEntry :=
  if ! cs.shouldServe || cs.limit == 0 then none
  else
    let (first, last) := cs.table.findPrefixRange interest.name
    (RangeLib.between first last).find? (·.canSatisfy now interest)

/-! ## The order of the set -/

section Order

def dataKey (e : CsEntry) : Name ×ₗ WithBot Component := toLex (e.name, ↑e.digest)

def queryKey (name : Name) : Name ×ₗ WithBot Component :=
  match name.getLast? with
  | none => toLex (name, ⊥)
  | some c => if c.isImplicitSha256Digest then toLex (name.dropLast, ↑c) else toLex (name, ⊥)

theorem compareDataWithData_lt_iff (a b : CsEntry) : compareDataWithData a b = .lt ↔ dataKey a < dataKey b := by
  rw [compareDataWithData, Ordering.then_eq_lt, Name.compare_lt_iff, Name.compare_eq_iff, Component.compare_lt_iff,
    dataKey, dataKey, Prod.Lex.toLex_lt_toLex]
  simp

theorem isFullName_concat (l : Name) (c : Component) :
    Name.isFullName (l ++ [c]) = c.isImplicitSha256Digest := by
  rw [Name.isFullName, List.getLast?_concat]
  rfl

theorem isFullName_cases (q : Name) :
    (∃ l c, c.isImplicitSha256Digest = true ∧ q = l ++ [c]) ∨ q.isFullName = false := by
  rcases List.eq_nil_or_concat q with rfl | ⟨l, c, rfl⟩
  · exact Or.inr rfl
  · rw [List.concat_eq_append]
    cases hc : c.isImplicitSha256Digest with
    | true => exact Or.inl ⟨l, c, hc, rfl⟩
    | false =>
      exact Or.inr ((isFullName_concat l c).trans hc)

theorem queryKey_concat {l : Name} {c : Component} (hc : c.isImplicitSha256Digest = true) :
    queryKey (l ++ [c]) = toLex (l, ↑c) := by
  rw [queryKey, List.getLast?_concat]
  dsimp only
  rw [if_pos hc, List.dropLast_concat]

theorem queryKey_of_not {q : Name} (hq : q.isFullName = false) : queryKey q = toLex (q, ⊥) := by
  rw [queryKey]
  rw [Name.isFullName] at hq
  cases hlast : q.getLast? with
  | none => rfl
  | some c =>
    rw [hlast] at hq
    dsimp only
    rw [if_neg (by simpa using hq)]

theorem compareQueryWithData_concat {l : Name} {c : Component} (hc : c.isImplicitSha256Digest = true)
    (e : CsEntry) :
    compareQueryWithData (l ++ [c]) e = (Name.compare l e.name).then (Component.compare c e.digest) := by
  rw [compareQueryWithData, if_pos ((isFullName_concat l c).trans hc), List.dropLast_concat, List.getLastD_concat]

theorem compareQueryWithData_of_not {q : Name} (hq : q.isFullName = false) (e : CsEntry) :
    compareQueryWithData q e = (Name.compare q e.name).then .lt := by
  rw [compareQueryWithData, if_neg (by simp [hq])]

theorem compareQueryWithData_gt_iff (q : Name) (e : CsEntry) :
    compareQueryWithData q e = .gt ↔ dataKey e < queryKey q := by
  rcases isFullName_cases q with ⟨l, c, hc, rfl⟩ | hq
  · rw [compareQueryWithData_concat hc, queryKey_concat hc, Ordering.then_eq_gt, Name.compare_gt_iff,
      Name.compare_eq_iff, Component.compare_gt_iff, dataKey, Prod.Lex.toLex_lt_toLex, eq_comm]
    simp
  · rw [compareQueryWithData_of_not hq, queryKey_of_not hq, Ordering.then_eq_gt, Name.compare_gt_iff, dataKey,
      Prod.Lex.toLex_lt_toLex]
    simp

end Order

/-! ## The range of a lookup -/

section Range

variable {table : CsTable} {e : CsEntry} {now : ℕ} {interest : Interest}

def InRange (prefixName : Name) (e : CsEntry) : Prop :=
  ¬ dataKey e < queryKey prefixName ∧ (prefixName ≠ [] → dataKey e < queryKey prefixName.getSuccessor)

theorem CsTable.partitioned (table : CsTable) (q : Name) :
    RangeLib.Partitioned (fun e => compareQueryWithData q e == .gt) table.entries := by
  refine table.sorted.imp fun {a b} hab hb => ?_
  rw [beq_iff_eq, compareQueryWithData_gt_iff] at hb ⊢
  rw [compareDataWithData_lt_iff] at hab
  exact hab.trans hb

theorem isImplicitSha256Digest_getSuccessor {c : Component} (hc : c.isImplicitSha256Digest = false) :
    c.getSuccessor.isImplicitSha256Digest = false := by
  rw [Component.isImplicitSha256Digest, beq_eq_false_iff_ne] at hc ⊢
  rcases c.getSuccessor_cases with ⟨-, hsucc⟩ | ⟨-, ⟨htype, hsucc⟩ | ⟨-, hsucc⟩⟩
  · rw [hsucc]
    exact hc
  · rw [hsucc, htype.resolve_left hc]
    decide
  · rw [hsucc]
    exact hc

theorem isFullName_getSuccessor {q : Name} (hne : q ≠ []) (hq : q.isFullName = false) :
    q.getSuccessor.isFullName = false := by
  rcases List.eq_nil_or_concat q with rfl | ⟨l, c, rfl⟩
  · exact absurd rfl hne
  · rw [List.concat_eq_append] at *
    rw [isFullName_concat] at hq
    rw [Name.getSuccessor_concat, isFullName_concat]
    exact isImplicitSha256Digest_getSuccessor hq

theorem queryKey_lt_getSuccessor {q : Name} (hne : q ≠ []) (hvalid : q.Valid) :
    queryKey q < queryKey q.getSuccessor := by
  have hlt := Name.lt_getSuccessor_of_isPrefix hne hvalid (List.prefix_refl q)
  rcases isFullName_cases q with ⟨l, c, hc, rfl⟩ | hq
  · have hcvalid : c.Valid := hvalid c (by simp)
    rw [queryKey_concat hc]
    rw [Name.getSuccessor_concat] at hlt ⊢
    cases hsucc : c.getSuccessor.isImplicitSha256Digest with
    | true =>
      rw [queryKey_concat hsucc, Prod.Lex.toLex_lt_toLex]
      exact Or.inr ⟨rfl, WithBot.coe_lt_coe.mpr hcvalid.lt_getSuccessor⟩
    | false =>
      rw [queryKey_of_not ((isFullName_concat l _).trans hsucc), Prod.Lex.toLex_lt_toLex]
      refine Or.inl (lt_of_le_of_ne (not_lt.mp (not_lt_of_isPrefix (List.prefix_append _ _))) ?_)
      simp
  · rw [queryKey_of_not hq, queryKey_of_not (isFullName_getSuccessor hne hq), Prod.Lex.toLex_lt_toLex]
    exact Or.inl hlt

/-- The entry is hidden from the name of an Interest: the name ends with a digest, and so does its successor, and
the name of the Data goes on after the digest. -/
def Hidden (name : Name) (e : CsEntry) : Prop :=
  name.isFullName = true ∧ name.getSuccessor.isFullName = true ∧ name <+: e.name

theorem matchesData_cases (h : interest.matchesData e.data = true) :
    interest.name = e.fullName ∨ interest.name <+: e.name := by
  unfold Interest.matchesData at h
  rw [Bool.and_eq_true] at h
  obtain ⟨h, -⟩ := h
  split_ifs at h
  · rw [Bool.and_eq_true] at h
    exact Or.inl (eq_of_beq h.2)
  · exact Or.inr (List.isPrefixOf_iff_prefix.mp h)
  · right
    rw [eq_of_beq h]
    exact List.prefix_refl _

theorem toLex_lt_bot_iff {n m : Name} {d : WithBot Component} :
    (toLex (n, d) : Name ×ₗ WithBot Component) < toLex (m, ⊥) ↔ n < m := by
  rw [Prod.Lex.toLex_lt_toLex]
  simp

theorem queryKey_fullName (e : CsEntry) : queryKey e.fullName = dataKey e := queryKey_concat rfl

theorem not_lt_queryKey_of_isPrefix {q : Name} (h : q <+: e.name) : ¬ dataKey e < queryKey q := by
  have hle := not_lt_of_isPrefix h
  rcases isFullName_cases q with ⟨l, c, hc, rfl⟩ | hq
  · -- the name goes on after the digest
    rw [queryKey_concat hc, dataKey, Prod.Lex.toLex_lt_toLex, not_or]
    refine ⟨not_lt_of_isPrefix ((List.prefix_append l [c]).trans h), fun heq => ?_⟩
    have hlength := h.length_le
    have hlength' : e.name.length = l.length := congrArg List.length heq.1
    rw [List.length_append, List.length_singleton] at hlength
    omega
  · rw [queryKey_of_not hq, dataKey, toLex_lt_bot_iff]
    exact hle

theorem ne_nil_of_isFullName {q : Name} (h : q.isFullName = true) : q ≠ [] := by
  rintro rfl
  cases h

theorem not_lt_getSuccessor_of_hidden {q : Name} (h : Hidden q e) : ¬ dataKey e < queryKey q.getSuccessor := by
  obtain ⟨hq, hsucc, hpre⟩ := h
  rcases List.eq_nil_or_concat q with rfl | ⟨l, c, rfl⟩
  · exact absurd rfl (ne_nil_of_isFullName hq)
  · rw [List.concat_eq_append] at *
    rw [Name.getSuccessor_concat] at hsucc ⊢
    rw [isFullName_concat] at hsucc
    rw [queryKey_concat hsucc, dataKey, Prod.Lex.toLex_lt_toLex, not_or]
    refine ⟨not_lt_of_isPrefix ((List.prefix_append l [c]).trans hpre), fun heq => ?_⟩
    have hlength := hpre.length_le
    have hlength' : e.name.length = l.length := congrArg List.length heq.1
    rw [List.length_append, List.length_singleton] at hlength
    omega

/-- **Which entries are in the range**, of those that the Interest matches. -/
theorem CsEntry.inRange_iff {q : Name} (hvalid : q.Valid) (h : q = e.fullName ∨ q <+: e.name) :
    InRange q e ↔ ¬ Hidden q e := by
  rcases h with hfull | hpre
  · have hne : q ≠ [] := by
      rw [hfull]
      exact List.append_ne_nil_of_right_ne_nil _ (List.cons_ne_nil _ _)
    have hkey : queryKey q = dataKey e := hfull ▸ queryKey_fullName e
    refine iff_of_true ⟨hkey ▸ lt_irrefl _, fun _ => hkey ▸ queryKey_lt_getSuccessor hne hvalid⟩ ?_
    rintro ⟨-, -, hpre⟩
    -- the full name is longer than the name
    have hlength := hpre.length_le
    rw [hfull, CsEntry.fullName, Data.fullName, List.length_append, List.length_singleton] at hlength
    exact absurd hlength (Nat.not_succ_le_self _)
  · rw [InRange, and_iff_right (not_lt_queryKey_of_isPrefix hpre)]
    by_cases hidden : Hidden q e
    · refine iff_of_false (fun hlt => ?_) (not_not.mpr hidden)
      exact not_lt_getSuccessor_of_hidden hidden (hlt (ne_nil_of_isFullName hidden.1))
    · refine iff_of_true (fun hne => ?_) hidden
      have hsucc : q.getSuccessor.isFullName = false := by
        by_contra hsucc
        rw [Bool.not_eq_false] at hsucc
        cases hq : q.isFullName with
        | true => exact hidden ⟨hq, hsucc, hpre⟩
        | false => exact absurd (isFullName_getSuccessor hne hq) (by simp [hsucc])
      rw [queryKey_of_not hsucc, dataKey, toLex_lt_bot_iff]
      exact Name.lt_getSuccessor_of_isPrefix hne hvalid hpre

end Range

/-! ## The order of full names -/

section FullNames

def Undercuts (m n : Name) (c : Component) : Prop := ∃ x, n ++ [x] <+: m ∧ x < c

theorem undercuts_nil_iff {y c : Component} {m : Name} : Undercuts (y :: m) [] c ↔ y < c := by
  refine ⟨?_, fun h => ⟨y, List.cons_prefix_cons.mpr ⟨rfl, List.nil_prefix⟩, h⟩⟩
  rintro ⟨x, hx, hlt⟩
  rw [List.nil_append, List.cons_prefix_cons] at hx
  exact hx.1 ▸ hlt

theorem undercuts_cons_iff {a b c : Component} {m n : Name} :
    Undercuts (b :: m) (a :: n) c ↔ a = b ∧ Undercuts m n c := by
  simp only [Undercuts, List.cons_append, List.cons_prefix_cons]
  constructor
  · rintro ⟨x, ⟨hab, hx⟩, hlt⟩
    exact ⟨hab, x, hx, hlt⟩
  · rintro ⟨hab, x, hx, hlt⟩
    exact ⟨x, ⟨hab, hx⟩, hlt⟩

theorem lt_concat_iff {q m : Name} {d : Component} : q < m ++ [d] ↔ ¬ m < q ∨ Undercuts q m d := by
  induction m generalizing q with
  | nil =>
    cases q with
    | nil => simp
    | cons a q =>
      rw [List.nil_append, List.cons_lt_cons_iff, undercuts_nil_iff]
      simp
  | cons b m ih =>
    cases q with
    | nil => simp
    | cons a q =>
      rw [List.cons_append, List.cons_lt_cons_iff, List.cons_lt_cons_iff, undercuts_cons_iff, ih]
      rcases lt_trichotomy a b with hab | rfl | hab
      · simp [hab, hab.not_gt, hab.ne']
      · simp
      · simp [hab, hab.not_gt, hab.ne', hab.ne]

theorem undercuts_concat_iff {l m : Name} {c d : Component} :
    Undercuts (l ++ [c]) m d ↔ Undercuts l m d ∨ l = m ∧ c < d := by
  simp only [Undercuts, List.prefix_concat_iff]
  constructor
  · rintro ⟨x, heq | hx, hlt⟩
    · obtain ⟨rfl, hxc⟩ := List.append_inj' heq rfl
      rw [List.singleton_inj] at hxc
      exact Or.inr ⟨rfl, hxc ▸ hlt⟩
    · exact Or.inl ⟨x, hx, hlt⟩
  · rintro (⟨x, hx, hlt⟩ | ⟨rfl, hlt⟩)
    · exact ⟨x, Or.inr hx, hlt⟩
    · exact ⟨c, Or.inl rfl, hlt⟩

/-- **The order of full names.** -/
theorem concat_lt_concat_iff {l m : Name} {c d : Component} :
    l ++ [c] < m ++ [d] ↔ l < m ∧ ¬ Undercuts m l c ∨ Undercuts l m d ∨ l = m ∧ c < d := by
  rw [lt_concat_iff, lt_concat_iff, undercuts_concat_iff, not_or, not_not]

theorem Undercuts.lt {m n : Name} {c : Component} (h : Undercuts m n c) : n < m := by
  obtain ⟨x, ⟨r, rfl⟩, -⟩ := h
  rw [List.append_assoc]
  nth_rewrite 1 [← List.append_nil n]
  rw [Name.append_lt_append_iff]
  exact List.nil_lt_cons _ _

theorem not_undercuts_self {n : Name} {c : Component} : ¬ Undercuts n n c := fun h => lt_irrefl n h.lt

/-- The names in the comparison of a name with an entry are compared in another order than the full names. -/
def Disagrees (q : Name) (e : CsEntry) : Prop :=
  if q.isFullName then
    Undercuts q.dropLast e.name e.digest ∨ Undercuts e.name q.dropLast (q.getLastD e.digest)
  else Undercuts q e.name e.digest

theorem ordering_eq_iff {a b : Ordering} : a = b ↔ (a = .lt ↔ b = .lt) ∧ (a = .gt ↔ b = .gt) := by
  cases a <;> cases b <;> simp

/-- **When the comparison of a name with an entry is that of full names.** -/
theorem compareQueryWithData_eq_iff (q : Name) (e : CsEntry) :
    compareQueryWithData q e = Name.compare q e.fullName ↔ ¬ Disagrees q e := by
  rw [ordering_eq_iff, Name.compare_lt_iff, Name.compare_gt_iff]
  have hfull : e.fullName = e.name ++ [e.digest] := rfl
  rcases isFullName_cases q with ⟨l, c, hc, rfl⟩ | hq
  · rw [compareQueryWithData_concat hc, Disagrees, if_pos ((isFullName_concat l c).trans hc), List.dropLast_concat,
      List.getLastD_concat, hfull, concat_lt_concat_iff, concat_lt_concat_iff, Ordering.then_eq_lt,
      Ordering.then_eq_gt, Name.compare_lt_iff, Name.compare_gt_iff, Name.compare_eq_iff, Component.compare_lt_iff,
      Component.compare_gt_iff]
    rcases lt_trichotomy l e.name with hlt | rfl | hlt
    · have hnot : ¬ Undercuts l e.name e.digest := fun h => hlt.not_gt h.lt
      simp [hlt, hlt.not_gt, hlt.ne, hlt.ne', hnot]
    · simp [not_undercuts_self]
    · have hnot : ¬ Undercuts e.name l c := fun h => hlt.not_gt h.lt
      simp [hlt, hlt.not_gt, hlt.ne, hlt.ne', hnot]
  · have hne : q ≠ e.name ++ [e.digest] := by
      rintro rfl
      rw [isFullName_concat] at hq
      cases hq
    rw [compareQueryWithData_of_not hq, Disagrees, if_neg (by simp [hq]), hfull, Ordering.then_eq_lt,
      Ordering.then_eq_gt, Name.compare_lt_iff, Name.compare_gt_iff, Name.compare_eq_iff]
    have hgt : e.name ++ [e.digest] < q ↔ ¬ q < e.name ++ [e.digest] := by
      rw [not_lt]
      exact ⟨le_of_lt, fun h => lt_of_le_of_ne h hne.symm⟩
    rw [hgt, lt_concat_iff]
    rcases lt_trichotomy q e.name with hlt | rfl | hlt
    · have hnot : ¬ Undercuts q e.name e.digest := fun h => hlt.not_gt h.lt
      simp [hlt, hlt.not_gt, hnot]
    · simp [not_undercuts_self]
    · simp [hlt, hlt.not_gt, hlt.ne']

theorem fullName_lt_iff (a b : CsEntry) :
    a.fullName < b.fullName ↔
      dataKey a < dataKey b ∧ ¬ Undercuts b.name a.name a.digest ∨ Undercuts a.name b.name b.digest := by
  have hkey : dataKey a < dataKey b ↔ a.name < b.name ∨ a.name = b.name ∧ a.digest < b.digest := by
    rw [dataKey, dataKey, Prod.Lex.toLex_lt_toLex]
    simp
  rw [hkey]
  change a.name ++ [a.digest] < b.name ++ [b.digest] ↔ _
  rw [concat_lt_concat_iff]
  by_cases heq : a.name = b.name
  · simp [heq, not_undercuts_self]
  · simp [heq]

end FullNames

/-! ## What is found -/

section Find

variable {cs : Cs} {now : ℕ} {interest : Interest}

theorem CsTable.mem_findPrefixRange (table : CsTable) {q : Name} (hvalid : q.Valid) {e : CsEntry} :
    e ∈ RangeLib.between (table.findPrefixRange q).1 (table.findPrefixRange q).2 ↔
      e ∈ table.entries ∧ InRange q e := by
  unfold findPrefixRange lowerBound InRange
  dsimp only
  split_ifs with hnil
  · rw [RangeLib.between_nil, RangeLib.mem_lowerBound (table.partitioned q), beq_eq_false_iff_ne, Ne,
      compareQueryWithData_gt_iff]
    exact and_congr_right fun _ => ⟨fun h => ⟨h, fun hne => absurd hnil hne⟩, fun h => h.1⟩
  · have hlt := queryKey_lt_getSuccessor hnil hvalid
    have hpq : ∀ a : CsEntry, (compareQueryWithData q a == .gt) = true →
        (compareQueryWithData q.getSuccessor a == .gt) = true := by
      intro a ha
      rw [beq_iff_eq, compareQueryWithData_gt_iff] at ha ⊢
      exact ha.trans hlt
    rw [RangeLib.mem_between_lowerBound (table.partitioned q) (table.partitioned _) hpq, beq_eq_false_iff_ne, Ne,
      beq_iff_eq, compareQueryWithData_gt_iff, compareQueryWithData_gt_iff]
    exact and_congr_right fun _ => and_congr_right fun _ => ⟨fun h _ => h, fun h => h hnil⟩

theorem canSatisfy_matchesData {e : CsEntry} (h : e.canSatisfy now interest = true) :
    interest.matchesData e.data = true := by
  unfold CsEntry.canSatisfy at h
  by_contra hmatch
  rw [Bool.not_eq_true] at hmatch
  simp [hmatch] at h

def Satisfies (cs : Cs) (now : ℕ) (interest : Interest) (e : CsEntry) : Prop :=
  e ∈ cs.table.entries ∧ e.canSatisfy now interest = true

theorem Satisfies.cases {e : CsEntry} (h : Satisfies cs now interest e) :
    interest.name = e.fullName ∨ interest.name <+: e.name := matchesData_cases (canSatisfy_matchesData h.2)

/-- **What the lookup does**: the first of the satisfying entries that are not hidden. -/
theorem Cs.findImpl_spec (hserve : cs.shouldServe = true) (hlimit : cs.limit ≠ 0) (hvalid : interest.name.Valid) :
    match cs.findImpl now interest with
    | none => ∀ e, Satisfies cs now interest e → Hidden interest.name e
    | some e => Satisfies cs now interest e ∧ ¬ Hidden interest.name e ∧
        ∀ e', Satisfies cs now interest e' → ¬ Hidden interest.name e' → e' = e ∨ dataKey e < dataKey e' := by
  have hmem := fun e (h : Satisfies cs now interest e) =>
    (cs.table.mem_findPrefixRange hvalid).trans ((and_iff_right h.1).trans (CsEntry.inRange_iff hvalid h.cases))
  have hfind : cs.findImpl now interest = (RangeLib.between (cs.table.findPrefixRange interest.name).1
      (cs.table.findPrefixRange interest.name).2).find? (·.canSatisfy now interest) := by
    unfold findImpl
    rw [hserve, if_neg (by simpa using hlimit)]
  have hsorted := cs.table.sorted.sublist
    ((RangeLib.between_sublist (cs.table.findPrefixRange interest.name).1
      (cs.table.findPrefixRange interest.name).2).trans RangeLib.lowerBound_sublist)
  cases hresult : cs.findImpl now interest with
  | none =>
    intro e he
    rw [hfind, List.find?_eq_none] at hresult
    by_contra hidden
    exact hresult e ((hmem e he).mpr hidden) he.2
  | some e =>
    rw [hfind] at hresult
    have hcan := List.find?_some hresult
    have hsat : Satisfies cs now interest e :=
      ⟨((cs.table.mem_findPrefixRange hvalid).mp (List.mem_of_find?_eq_some hresult)).1, hcan⟩
    refine ⟨hsat, (hmem e hsat).mp (List.mem_of_find?_eq_some hresult), fun e' he' hidden' => ?_⟩
    rw [← compareDataWithData_lt_iff]
    exact RangeLib.find?_sorted hsorted hresult ((hmem e' he').mpr hidden') he'.2

/-- What a lookup should do: it finds an entry if some stored entry can satisfy the Interest, and then the one
with the smallest full name. -/
def FindRight (cs : Cs) (now : ℕ) (interest : Interest) : Prop :=
  match cs.findImpl now interest with
  | none => ∀ e, ¬ Satisfies cs now interest e
  | some e => Satisfies cs now interest e ∧ ∀ e', Satisfies cs now interest e' → e.fullName ≤ e'.fullName

/-- Where an entry is hidden, the Data with the full name of the Interest is there too. -/
def HiddenCovered (cs : Cs) (now : ℕ) (interest : Interest) : Prop :=
  ∀ e, Satisfies cs now interest e → Hidden interest.name e →
    ∃ e₀, Satisfies cs now interest e₀ ∧ e₀.fullName = interest.name

/-- Before an entry whose digest another entry undercuts, there is a third in the table. -/
def UndercutsCovered (cs : Cs) (now : ℕ) (interest : Interest) : Prop :=
  ∀ e₀ e, Satisfies cs now interest e₀ → Satisfies cs now interest e → Undercuts e.name e₀.name e₀.digest →
    ∃ e₁, Satisfies cs now interest e₁ ∧ compareDataWithData e₁ e₀ = .lt

theorem fullName_eq_of_hidden {e e' : CsEntry} (hidden : Hidden interest.name e)
    (h : Satisfies cs now interest e') (h' : ¬ Hidden interest.name e') : e'.fullName = interest.name := by
  rcases h.cases with hname | hpre
  · exact hname.symm
  · exact absurd ⟨hidden.1, hidden.2.1, hpre⟩ h'

theorem dataKey_lt_of_isPrefix {a b : CsEntry} (h : a.fullName <+: b.name) : dataKey a < dataKey b := by
  obtain ⟨r, hr⟩ := h
  rw [dataKey, dataKey, Prod.Lex.toLex_lt_toLex, ← hr]
  left
  change a.name < a.name ++ [a.digest] ++ r
  rw [List.append_assoc]
  nth_rewrite 1 [← List.append_nil a.name]
  rw [Name.append_lt_append_iff]
  exact List.nil_lt_cons _ _

theorem fullName_le_of_cases {a e : CsEntry} (h : a.fullName = e.fullName ∨ a.fullName <+: e.name) :
    a.fullName ≤ e.fullName := by
  rcases h with h | h
  · exact h.le
  · exact not_lt.mp (not_lt_of_isPrefix (h.trans (List.prefix_append _ _)))

theorem not_undercuts_of_cases {a e : CsEntry} (h : a.fullName = e.fullName ∨ a.fullName <+: e.name) :
    ¬ Undercuts e.name a.name a.digest := by
  intro hunder
  have hlt := (fullName_lt_iff e a).mpr (Or.inr hunder)
  exact not_lt.mpr (fullName_le_of_cases h) hlt

/-- **When a lookup is right.** -/
theorem findRight_iff (hserve : cs.shouldServe = true) (hlimit : cs.limit ≠ 0) (hvalid : interest.name.Valid) :
    FindRight cs now interest ↔ HiddenCovered cs now interest ∧ UndercutsCovered cs now interest := by
  have hspec := @Cs.findImpl_spec cs now interest hserve hlimit hvalid
  unfold FindRight
  cases hresult : cs.findImpl now interest with
  | none =>
    rw [hresult] at hspec
    constructor
    · intro h
      exact ⟨fun e he => absurd he (h e), fun e₀ _ he₀ => absurd he₀ (h e₀)⟩
    · rintro ⟨hcovered, -⟩ e he
      obtain ⟨e₀, he₀, hname⟩ := hcovered e he (hspec e he)
      have hpre := (hspec e₀ he₀).2.2
      rw [← hname] at hpre
      exact absurd (dataKey_lt_of_isPrefix hpre) (lt_irrefl _)
  | some e =>
    rw [hresult] at hspec
    obtain ⟨he, hidden, hleast⟩ := hspec
    dsimp only
    rw [and_iff_right he]
    -- beside a hidden entry, the one that is found has the name of the Interest
    have hname : ∀ a, Satisfies cs now interest a → Hidden interest.name a → ∀ e', Satisfies cs now interest e' →
        e.fullName = e'.fullName ∨ e.fullName <+: e'.name := by
      intro a _ ha e' he'
      rw [fullName_eq_of_hidden ha he hidden]
      exact he'.cases
    constructor
    · intro h
      refine ⟨fun a _ ha => ⟨e, he, fullName_eq_of_hidden ha he hidden⟩, fun e₀ e' he₀ he' hunder => ?_⟩
      refine ⟨e, he, ?_⟩
      rw [compareDataWithData_lt_iff]
      by_cases hidden₀ : Hidden interest.name e₀
      · have hpre := hidden₀.2.2
        rw [← fullName_eq_of_hidden hidden₀ he hidden] at hpre
        exact dataKey_lt_of_isPrefix hpre
      · rcases hleast e₀ he₀ hidden₀ with rfl | hlt
        · exact absurd ((fullName_lt_iff e' e₀).mpr (Or.inr hunder)) (not_lt.mpr (h e' he'))
        · exact hlt
    · rintro ⟨-, hundercuts⟩ e' he'
      by_cases hidden' : Hidden interest.name e'
      · exact fullName_le_of_cases (hname e' he' hidden' e' he')
      · rcases hleast e' he' hidden' with rfl | hlt
        · exact le_rfl
        · by_contra hgt
          rcases (fullName_lt_iff e' e).mp (not_le.mp hgt) with ⟨hlt', -⟩ | hunder
          · exact lt_asymm hlt hlt'
          · obtain ⟨e₁, he₁, hlt₁⟩ := hundercuts e e' he he' hunder
            rw [compareDataWithData_lt_iff] at hlt₁
            by_cases hidden₁ : Hidden interest.name e₁
            · exact not_undercuts_of_cases (hname e₁ he₁ hidden₁ e' he') hunder
            · rcases hleast e₁ he₁ hidden₁ with rfl | hlt₁'
              · exact lt_irrefl _ hlt₁
              · exact lt_asymm hlt₁ hlt₁'

end Find

/-- **When a lookup finds the entry with the smallest full name**, when the range has all entries that can satisfy
the Interest, and when a comparison is that of full names. -/
theorem findImpl_right_iff (cs : Cs) (now : ℕ) (interest : Interest) (hserve : cs.shouldServe = true)
    (hlimit : cs.limit ≠ 0) (hvalid : interest.name.Valid) :
    (FindRight cs now interest ↔ HiddenCovered cs now interest ∧ UndercutsCovered cs now interest) ∧
      ((∀ e, Satisfies cs now interest e → e ∈ RangeLib.between (cs.table.findPrefixRange interest.name).1
          (cs.table.findPrefixRange interest.name).2) ↔
        ∀ e, Satisfies cs now interest e → ¬ Hidden interest.name e) ∧
      ∀ (queryName : Name) (e : CsEntry),
        compareQueryWithData queryName e = Name.compare queryName e.fullName ↔ ¬ Disagrees queryName e := by
  refine ⟨findRight_iff hserve hlimit hvalid, forall_congr' fun e => ?_, compareQueryWithData_eq_iff⟩
  refine imp_congr_right fun he => ?_
  rw [cs.table.mem_findPrefixRange hvalid, and_iff_right he.1]
  exact CsEntry.inRange_iff hvalid he.cases

def digestInside : Name := [.generic [65], ⟨1, List.replicate 32 0⟩]

def csDigestInside : Cs where
  table :=
    { entries := [⟨⟨digestInside, List.replicate 32 7, 0, none⟩, false, 0⟩]
      sorted := List.pairwise_singleton _ _
      valid := by decide }

def interestDigestInside : Interest where
  name := digestInside
  nonce := 1

theorem findImpl_right_iff_digestInside :
    (FindRight csDigestInside 0 interestDigestInside ↔
        HiddenCovered csDigestInside 0 interestDigestInside ∧
          UndercutsCovered csDigestInside 0 interestDigestInside) ∧
      csDigestInside.findImpl 0 interestDigestInside = none :=
  ⟨(findImpl_right_iff csDigestInside 0 interestDigestInside rfl (by decide) (by decide)).1, by decide⟩

/-- The packet is not found by its name. -/
theorem not_findRight_digestInside : ¬ FindRight csDigestInside 0 interestDigestInside := by
  unfold FindRight
  have hnone : csDigestInside.findImpl 0 interestDigestInside = none := by decide
  rw [hnone]
  intro h
  exact h ⟨⟨digestInside, List.replicate 32 7, 0, none⟩, false, 0⟩ ⟨List.mem_singleton.mpr rfl, by decide⟩

end Ns3Ndn
