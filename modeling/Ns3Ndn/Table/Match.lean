import Ns3Ndn.Table.Tables

/-!
# Matches in the tables

The longest prefix match of a PIT entry goes to the name of the entry, up to the depth of the tree. The entry
itself is attached to a node: that of the same name, unless the name ends with an implicit digest and is not
too deep, for then it is the node above.

* `below_match_iff`: what lies below a prefix, seen from the name and from the node.
-/

namespace Ns3Ndn.Tables

open OrdLib LpmLib NameTree

/-! ## The node of a PIT entry -/

def EndsWithDigest (name : Name) : Prop :=
  name.getLast?.any Component.isImplicitSha256Digest = true ∧ name.length ≤ maxDepth

instance (name : Name) : Decidable (EndsWithDigest name) := inferInstanceAs (Decidable (_ ∧ _))

def matchName (name : Name) : Name := name.take (min name.length maxDepth)

def nodeOf (name : Name) : Name := name.take (nteDepth name)

theorem nodeOf_of_digest {name : Name} (h : EndsWithDigest name) :
    matchName name = name ∧ ∃ c, name = nodeOf name ++ [c] := by
  obtain ⟨hdigest, hdepth⟩ := h
  refine ⟨List.take_of_length_le (le_min le_rfl hdepth), ?_⟩
  rcases List.eq_nil_or_concat name with rfl | ⟨l, c, rfl⟩
  · cases hdigest
  · rw [List.concat_eq_append] at *
    refine ⟨c, ?_⟩
    have hlength : (l ++ [c]).length = l.length + 1 := by simp
    have hnode : nteDepth (l ++ [c]) = l.length := by
      rw [nteDepth, hdigest, if_pos rfl, hlength, Nat.add_sub_cancel]
      exact min_eq_left (by omega)
    rw [nodeOf, hnode, List.take_left']
    rfl

theorem nodeOf_of_not_digest {name : Name} (h : ¬ EndsWithDigest name) : nodeOf name = matchName name := by
  rw [nodeOf, matchName, nteDepth]
  by_cases hdigest : name.getLast?.any Component.isImplicitSha256Digest = true
  · -- the name is too deep, with and without the digest
    have hdeep : maxDepth < name.length := Nat.not_le.mp fun hdepth => h ⟨hdigest, hdepth⟩
    rw [if_pos hdigest, min_eq_right (Nat.le_sub_one_of_lt hdeep), min_eq_right hdeep.le]
  · rw [if_neg hdigest, Nat.sub_zero]

/-- **What lies below a prefix**, seen from the name and from the node. They differ where a name ends with a
digest and has a value of its own. -/
theorem below_match_iff {β : Type} (f : Name → Option β) (p name : Name) :
    Below f p (matchName name) ↔
      (EndsWithDigest name → p = name ∨ Below f p (nodeOf name) ∧ f name = none) ∧
        (¬ EndsWithDigest name → Below f p (nodeOf name)) := by
  by_cases h : EndsWithDigest name
  · obtain ⟨hmatch, c, hc⟩ := nodeOf_of_digest h
    have hconcat := below_concat (f := f) (p := p) (l := nodeOf name) (a := c)
    rw [← hc] at hconcat
    simp only [h, not_true_eq_false, false_implies, and_true, true_implies]
    rw [hmatch, hconcat]
  · simp only [h, false_implies, not_false_eq_true, true_implies, true_and]
    rw [nodeOf_of_not_digest h]

theorem not_below_nodeOf {β : Type} {f : Name → Option β} {name : Name} (h : EndsWithDigest name) :
    ¬ Below f name (nodeOf name) := by
  intro hbelow
  obtain ⟨-, c, hc⟩ := nodeOf_of_digest h
  have hlength := hbelow.1.length_le
  have hc' := congrArg List.length hc
  rw [List.length_append, List.length_singleton] at hc'
  omega

/-- **Where name and node differ**: the name ends with a digest, and has a value, or is the prefix. -/
theorem below_match_ne_iff {β : Type} (f : Name → Option β) (p name : Name) :
    ¬ (Below f p (nodeOf name) ↔ Below f p (matchName name)) ↔
      EndsWithDigest name ∧ (p = name ∨ (f name).isSome ∧ Below f p (nodeOf name)) := by
  rw [below_match_iff]
  by_cases h : EndsWithDigest name
  · simp only [h, true_implies, not_true_eq_false, false_implies, and_true, true_and]
    by_cases hp : p = name
    · subst hp
      simp [not_below_nodeOf h]
    · cases hf : f name <;> simp [hp]
  · simp [h]

/-! ## Matches for a table -/

section Tables

variable {t : Tables} {β : Type}

theorem findLongestPrefixMatch_eq_lpm (nt : NameTree) (g : TableEntries → Option β) (hg : g {} = none)
    (name : Name) :
    nt.findLongestPrefixMatch (fun _ e => (g e.toTableEntries).isSome) name =
      (lpm (fun n => g (nt.tablesAt n)) name (min name.length maxDepth)).map Prod.fst := by
  refine lpm_map_fst_congr fun m => ?_
  unfold selected NameTree.tablesAt
  cases hfind : nt.find? m with
  | none => simp [hg]
  | some e => cases h : g e.toTableEntries <;> simp [h]

def fibAt (t : Tables) (name : Name) : Option (List NextHop) := (t.tablesAt name).fibEntry

def strategyAt (t : Tables) (name : Name) : Option Name := (t.tablesAt name).strategyChoiceEntry

/-- `nteHasFibEntry`. -/
def nteHasFibEntry : EntrySelector := fun _ e => e.fibEntry.isSome

/-- **The FIB entry of a PIT entry** is that at `p` just if there is one, and none below it. -/
theorem Valid.findLongestPrefixMatchPit_fib_iff (h : t.Valid) {nte p : Name} {e : NtPitEntry}
    (he : e ∈ (t.tablesAt nte).pitEntries) :
    t.nameTree.findLongestPrefixMatchPit nteHasFibEntry e = some p ↔
      (t.fibAt p).isSome ∧ Below t.fibAt p (matchName e.interest.name) := by
  have hmatch : t.nameTree.findLongestPrefixMatch nteHasFibEntry e.interest.name =
      (lpm t.fibAt e.interest.name _).map Prod.fst :=
    findLongestPrefixMatch_eq_lpm t.nameTree TableEntries.fibEntry rfl e.interest.name
  rw [h.findLongestPrefixMatchPit_eq he, hmatch]
  simp only [Option.map_eq_some_iff, Prod.exists, exists_and_right, exists_eq_right]
  simp only [lpm_eq_some_iff (min_le_left _ _), isLpm_iff, exists_and_right, ← Option.isSome_iff_exists]
  rfl

theorem findEffectiveStrategy_eq (t : Tables) (name : Name) :
    t.findEffectiveStrategy name = (lpm t.strategyAt name (min name.length maxDepth)).map Prod.snd := by
  have hmatch : t.nameTree.findLongestPrefixMatch nteHasStrategyChoiceEntry name =
      (lpm t.strategyAt name _).map Prod.fst :=
    findLongestPrefixMatch_eq_lpm t.nameTree TableEntries.strategyChoiceEntry rfl name
  rw [findEffectiveStrategy, hmatch]
  change ((lpm t.strategyAt _ _).map Prod.fst).bind t.strategyAt = _
  cases hlpm : lpm t.strategyAt name (min name.length maxDepth) with
  | none => rfl
  | some r =>
    obtain ⟨p, strategy⟩ := r
    exact ((lpm_eq_some_iff (min_le_left _ _)).mp hlpm).value

/-- **The effective strategy of a PIT entry** is that of its name. -/
theorem Valid.findEffectiveStrategyPit_eq (h : t.Valid) {nte : Name} {e : NtPitEntry}
    (he : e ∈ (t.tablesAt nte).pitEntries) :
    t.findEffectiveStrategyPit e = t.findEffectiveStrategy e.interest.name := by
  rw [findEffectiveStrategyPit, h.findLongestPrefixMatchPit_eq he]
  rfl

theorem Valid.findEffectiveStrategyMeasurements_eq (h : t.Valid) {nte : Name}
    (hnte : (t.nameTree.find? nte).isSome) :
    t.findEffectiveStrategyMeasurements nte = t.findEffectiveStrategy nte := by
  rw [findEffectiveStrategyMeasurements, h.shaped.findLongestPrefixMatchEntry_eq hnte]
  rfl

/-! ## Enumerations that stop at the entries of a table -/

theorem Valid.partialEnumerate_eq (h : t.Valid) (pred : EntrySubTreeSelector) {name : Name}
    (hname : (t.nameTree.find? name).isSome) :
    t.nameTree.partialEnumerate pred name = some (t.nameTree.preorder (t.nameTree.want pred) name) := by
  rw [h.shaped.partialEnumerate_eq, if_pos hname]

/-- **An enumeration from a prefix that stops at the entries below it** comes to the nodes with no entry
between. -/
theorem Valid.mem_preorder_iff_below (h : t.Valid) {w : Name → Bool × Bool} {f : Name → Option β} {p n : Name}
    (hp : (t.nameTree.find? p).isSome) (hn : (t.nameTree.find? n).isSome)
    (hself : p <+: n → ((w n).1 = true ↔ n = p ∨ f n = none))
    (hchildren : ∀ m, p <+: m → (t.nameTree.find? m).isSome → ((w m).2 = true ↔ m = p ∨ f m = none)) :
    n ∈ t.nameTree.preorder w p ↔ Below f p n := by
  have hlonger : ∀ {m : Name}, p.length < m.length → m ≠ p := by
    rintro m hlt rfl
    exact lt_irrefl _ hlt
  rw [h.shaped.mem_preorder hp]
  constructor
  · rintro ⟨hpre, -, hn', hbetween⟩
    rw [hself hpre] at hn'
    refine ⟨hpre, fun m hm hlt => ?_⟩
    by_cases hmn : m = n
    · subst hmn
      exact hn'.resolve_left (hlonger hlt)
    · have hpm : p <+: m := List.prefix_of_prefix_length_le hpre hm hlt.le
      have hm' := (hchildren m hpm (h.shaped.isSome_of_isPrefix hm hn)).mp (hbetween m hpm hm hmn)
      exact hm'.resolve_left (hlonger hlt)
  · rintro ⟨hpre, hbelow⟩
    have hcases : ∀ m, p <+: m → m <+: n → m = p ∨ f m = none := by
      intro m hpm hm
      rcases hpm.length_le.lt_or_eq with hlt | heq
      · exact Or.inr (hbelow m hm hlt)
      · exact Or.inl (hpm.eq_of_length heq).symm
    refine ⟨hpre, hn, (hself hpre).mpr (hcases n hpre (List.prefix_refl n)), fun m hpm hm _ => ?_⟩
    exact (hchildren m hpm (h.shaped.isSome_of_isPrefix hm hn)).mpr (hcases m hpm hm)

theorem isSome_of_pitEntry {nte : Name} {e : NtPitEntry} (he : e ∈ (t.tablesAt nte).pitEntries) :
    (t.nameTree.find? nte).isSome := by
  refine isSome_of_tablesAt fun hempty => ?_
  rw [tablesAt, hempty] at he
  cases he

theorem want_eq {pred : EntrySubTreeSelector} {name : Name} {e : NtEntry} (he : t.nameTree.find? name = some e) :
    t.nameTree.want pred name = pred name e := by
  rw [want, he]

/-! ## Strategies for every name -/

def Rooted (t : Tables) : Prop := (t.strategyAt []).isSome

theorem Rooted.findEffectiveStrategy (h : t.Rooted) (name : Name) :
    (t.findEffectiveStrategy name).isSome := by
  rw [findEffectiveStrategy_eq, Option.isSome_map]
  by_contra hnone
  rw [Option.not_isSome_iff_eq_none, lpm_eq_none_iff (min_le_left _ _)] at hnone
  rw [Rooted, hnone [] List.nil_prefix (Nat.zero_le _)] at h
  cases h

theorem Rooted.edit (h : t.Rooted) (name : Name) (f : TableEntries → TableEntries)
    (hf : name = [] → (f (t.tablesAt [])).strategyChoiceEntry.isSome) : (t.edit name f).Rooted := by
  rw [Rooted, strategyAt, tablesAt_edit_eq]
  split_ifs with hm
  · exact hf hm.1
  · exact h

/-- **A change keeps the strategy of the root**, or replaces it by another one. -/
theorem Change.rooted {counted : Prop} {t' : Tables} (hchange : Change counted t t') (hvalid : t.Valid)
    (h : t.Rooted) : t'.Rooted := by
  cases hchange with
  | lookup hlen hdepth =>
    rw [Rooted, strategyAt, tablesAt, Tables.lookup, tablesAt_lookup]
    exact h
  | eraseIfEmpty name canEraseAncestors =>
    rw [Rooted, strategyAt, tablesAt, Tables.eraseIfEmpty, hvalid.shaped.tablesAt_eraseIfEmpty]
    exact h
  | @addFib name => exact h.edit name (fun te => { te with fibEntry := some [] }) fun _ => h
  | setFib hsome hordered => exact h.edit _ _ fun _ => h
  | @eraseFib name => exact h.edit name (fun te => { te with fibEntry := none }) fun _ => h
  | insertPit interest hname => exact h.edit _ (fun te => { te with pitEntries := te.pitEntries ++ [_] }) fun _ => h
  | editHosts name hg g' => exact h.edit _ _ fun _ => h
  | setStrategy hroot => exact h.edit _ _ hroot

theorem Changes.rooted {counted : Prop} {t' : Tables} (hchanges : Changes counted t t') (hvalid : t.Valid)
    (h : t.Rooted) : t'.Rooted := by
  induction hchanges with
  | refl => exact h
  | tail hchanges hchange ih => exact hchange.rooted (Changes.valid hchanges hvalid) ih

theorem run_rooted {S : NextHopSort} {registry : StrategyRegistry} {defaultStrategy : Name}
    {ops : List TableOp} (h : run S registry (initial (some defaultStrategy)) ops = some t) : t.Rooted := by
  refine run_induction (P := Rooted) ?_ Change.rooted h
  rfl

end Tables

end Ns3Ndn.Tables
