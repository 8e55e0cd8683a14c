import Ns3Ndn.Lib.Run
import Ns3Ndn.Table.Tables

/-!
# The size of the FIB

`Fib::m_nItems` should be the number of nodes with a FIB entry. `Fib::erase(prefix)` takes one off whenever
there is a node at the prefix, and does not look whether the node has a FIB entry: it may be there for another
table, or above another node.

* `nFib`, `surplus`: the number of FIB entries, and what the counter has more than that;
* `Change.surplus_eq`: a change that erases a FIB entry only where there is one keeps the surplus;
* **`run_fibCounted_iff`**: the counter is right all along a run just if no step is a miscount.
-/

namespace Ns3Ndn.Tables

open OrdLib NameTree

variable {counted : Prop} {t t' : Tables}

def nFib (t : Tables) : ℕ := (t.nameTree.toList.filter fun p => p.2.fibEntry.isSome).length

def fibNames (t : Tables) : Set Name := {name | (t.tablesAt name).fibEntry.isSome}

/-- The counter is right, and the next hops of every entry have different faces and are sorted by cost. A
counter that has wrapped around is negative here. -/
def FibCounted (t : Tables) : Prop :=
  t.nFibItems = t.nFib ∧ ∀ name nextHops, (t.tablesAt name).fibEntry = some nextHops → Ordered nextHops

def surplus (t : Tables) : ℤ := t.nFibItems - t.nFib

/-! ## One change -/

variable {name : Name}

theorem mem_fibNames_iff :
    name ∈ t.fibNames ↔ name ∈ (t.nameTree.toList.filter fun p => p.2.fibEntry.isSome).map Prod.fst := by
  change (t.tablesAt name).fibEntry.isSome ↔ _
  simp only [List.mem_map, List.mem_filter, Prod.exists, exists_and_right, exists_eq_right]
  constructor
  · intro h
    obtain ⟨e, he⟩ := Option.isSome_iff_exists.mp (isSome_of_fibEntry h)
    rw [tablesAt, tablesAt_of_find? he] at h
    exact ⟨e, (OrdMap.mem_toList _).mpr he, h⟩
  · rintro ⟨e, he, h⟩
    rw [tablesAt, tablesAt_of_find? ((OrdMap.mem_toList _).mp he)]
    exact h

theorem nodup_fibNames : ((t.nameTree.toList.filter fun p => p.2.fibEntry.isSome).map Prod.fst).Nodup :=
  t.nameTree.nodup_keys.sublist (List.filter_sublist.map _)

theorem finite_fibNames (t : Tables) : t.fibNames.Finite :=
  (List.finite_toSet ((t.nameTree.toList.filter fun p => p.2.fibEntry.isSome).map Prod.fst)).subset
    fun _ => mem_fibNames_iff.mp

theorem ncard_fibNames (t : Tables) : t.fibNames.ncard = t.nFib := by
  have hcoe : t.fibNames =
      (((t.nameTree.toList.filter fun p => p.2.fibEntry.isSome).map Prod.fst).toFinset : Set Name) := by
    ext name
    rw [List.coe_toFinset]
    exact mem_fibNames_iff
  rw [hcoe, Set.ncard_coe_finset, List.toFinset_card_of_nodup nodup_fibNames, List.length_map, nFib]

theorem surplus_congr (hitems : t'.nFibItems = t.nFibItems)
    (hfib : ∀ name, (t'.tablesAt name).fibEntry.isSome = (t.tablesAt name).fibEntry.isSome) :
    t'.surplus = t.surplus := by
  have hnames : t'.fibNames = t.fibNames := by
    ext name
    exact Bool.coe_iff_coe.mpr (hfib name)
  rw [surplus, surplus, hitems, ← ncard_fibNames, ← ncard_fibNames, hnames]

variable {f : TableEntries → TableEntries}

theorem surplus_edit
    (hf : (f (t.tablesAt name)).fibEntry.isSome = (t.tablesAt name).fibEntry.isSome) :
    (t.edit name f).surplus = t.surplus := by
  refine surplus_congr rfl fun m => ?_
  rw [tablesAt_edit_eq]
  split_ifs with hm
  · rw [← hm.1]
    exact hf
  · rfl

theorem mem_fibNames_edit (hname : (t.nameTree.find? name).isSome)
    {o : Option (List NextHop)} (hf : ∀ te, (f te).fibEntry = o) (m : Name) :
    m ∈ (t.edit name f).fibNames ↔ name = m ∧ o.isSome ∨ name ≠ m ∧ m ∈ t.fibNames := by
  change ((t.edit name f).tablesAt m).fibEntry.isSome ↔ _
  rw [tablesAt_edit_eq]
  by_cases hm : name = m
  · simp [hm, hm ▸ hname, hf]
  · simp only [hm, false_and, if_false, ne_eq, not_false_eq_true, true_and, false_or]
    rfl

theorem nFib_addFib (hname : (t.nameTree.find? name).isSome)
    (hnone : (t.tablesAt name).fibEntry = none) {nextHops : List NextHop}
    (hf : ∀ te, (f te).fibEntry = some nextHops) : (t.edit name f).nFib = t.nFib + 1 := by
  have hnew : name ∉ t.fibNames := by
    change ¬ (t.tablesAt name).fibEntry.isSome
    rw [hnone]
    exact Bool.false_ne_true
  have hnames : (t.edit name f).fibNames = insert name t.fibNames := by
    ext m
    rw [mem_fibNames_edit hname hf, Set.mem_insert_iff]
    by_cases hm : name = m
    · simp [hm]
    · simp [hm, Ne.symm hm]
  rw [← ncard_fibNames, hnames, Set.ncard_insert_of_notMem hnew t.finite_fibNames, ncard_fibNames]

theorem nFib_eraseFib (hsome : (t.tablesAt name).fibEntry.isSome)
    (hf : ∀ te, (f te).fibEntry = none) : (t.edit name f).nFib + 1 = t.nFib := by
  have hnames : (t.edit name f).fibNames = t.fibNames \ {name} := by
    ext m
    rw [mem_fibNames_edit (isSome_of_fibEntry hsome) hf, Set.mem_sdiff, Set.mem_singleton_iff]
    by_cases hm : name = m
    · simp [hm]
    · simp [hm, Ne.symm hm]
  have hmem : name ∈ t.fibNames := hsome
  rw [← ncard_fibNames, hnames, Set.ncard_sdiff_singleton_add_one hmem t.finite_fibNames, ncard_fibNames]

/-- **A change that counts what it erases keeps the surplus.** -/
theorem Change.surplus_eq (hchange : Change counted t t') (hcounted : counted) (h : t.Valid) :
    t'.surplus = t.surplus := by
  cases hchange with
  | lookup hlen hdepth =>
    refine surplus_congr rfl fun m => ?_
    rw [tablesAt, Tables.lookup, tablesAt_lookup]
    rfl
  | eraseIfEmpty name canEraseAncestors =>
    refine surplus_congr rfl fun m => ?_
    rw [tablesAt, Tables.eraseIfEmpty, h.shaped.tablesAt_eraseIfEmpty]
    rfl
  | @addFib name hname hnone =>
    have hcount := nFib_addFib hname hnone (f := fun te => { te with fibEntry := some [] }) fun _ => rfl
    change t.nFibItems + 1 - (t.edit name fun te => { te with fibEntry := some [] }).nFib = _
    rw [surplus, hcount]
    push_cast
    ring
  | setFib hsome hordered =>
    refine surplus_edit ?_
    rw [hsome]
    rfl
  | @eraseFib name hname hsome =>
    have hcount := nFib_eraseFib (hsome hcounted) (f := fun te => { te with fibEntry := none }) fun _ => rfl
    change t.nFibItems - 1 - (t.edit name fun te => { te with fibEntry := none }).nFib = _
    rw [surplus, ← hcount]
    push_cast
    ring
  | insertPit interest hname => exact surplus_edit (t := t) rfl
  | editHosts name hg g' => exact surplus_edit rfl
  | setStrategy hroot => exact surplus_edit rfl

theorem Changes.surplus_eq (hchanges : Changes counted t t') (hcounted : counted) (h : t.Valid) :
    t'.surplus = t.surplus := by
  induction hchanges with
  | refl => rfl
  | tail hchanges hchange ih => exact (hchange.surplus_eq hcounted (Changes.valid hchanges h)).trans ih

/-! ## Runs -/

theorem surplus_sub_one (t : Tables) : surplus { t with nFibItems := t.nFibItems - 1 } = t.surplus - 1 := by
  change t.nFibItems - 1 - t.nFib = t.nFibItems - t.nFib - 1
  ring

theorem surplus_fibEraseNode {nte : Name} (h : t.Valid) (hnone : (t.tablesAt nte).fibEntry = none) :
    (t.fibEraseNode nte true).surplus = t.surplus - 1 := by
  have hedit : (t.edit nte fun te => { te with fibEntry := none }).surplus = t.surplus := by
    refine surplus_edit ?_
    rw [hnone]
  have hvalid : (t.edit nte fun te => { te with fibEntry := none }).Valid := by
    obtain ⟨hattached, hids, -⟩ := h.entries nte
    refine h.edit nte _ rfl le_rfl ⟨hattached, hids, ?_⟩
    rintro _ ⟨⟩
  have herase := (Change.eraseIfEmpty nte true : Change True _ _).surplus_eq trivial hvalid
  rw [← hedit, ← herase]
  exact surplus_sub_one _

/-- **A step keeps the surplus just if it is no miscount.** -/
theorem step_surplus_eq_iff {S : NextHopSort} {registry : StrategyRegistry} (h : t.Valid) {op : TableOp}
    (hstep : step S registry t op = some t') : t'.surplus = t.surplus ↔ t.Counted op := by
  refine ⟨fun heq => ?_, fun hcounted => (step_changes hstep).surplus_eq hcounted h⟩
  by_contra hcounted
  cases op with
  | fibErase prefixName =>
    cases hstep
    simp only [Counted, Classical.not_imp, Option.not_isSome_iff_eq_none] at hcounted
    obtain ⟨hsome, hnone⟩ := hcounted
    obtain ⟨nte, hfind⟩ := Option.isSome_iff_exists.mp hsome
    obtain ⟨rfl, -⟩ := findExactMatch_eq_some hfind
    rw [fibErase, hfind, surplus_fibEraseNode h hnone] at heq
    omega
  | _ => exact hcounted trivial

theorem fibCounted_iff (h : t.Valid) : t.FibCounted ↔ t.surplus = 0 := by
  refine ⟨fun hfib => sub_eq_zero.mpr hfib.1, fun hsurplus => ⟨sub_eq_zero.mp hsurplus, ?_⟩⟩
  exact fun name => (h.entries name).ordered

theorem surplus_initial (defaultStrategy : Option Name) : (initial defaultStrategy).surplus = 0 := by
  cases defaultStrategy with
  | none => rfl
  | some strategy => rfl

/-- **The counter of the FIB** is right all along a run, and the next hops in order, just if every
`Fib::erase(prefix)` of the run that finds a node finds a FIB entry there. -/
theorem run_fibCounted_iff (S : NextHopSort) (registry : StrategyRegistry) (defaultStrategy : Option Name)
    (ops : List TableOp) :
    (∀ l, l <+: ops → ∀ t, run S registry (initial defaultStrategy) l = some t → t.FibCounted) ↔
      ∀ l op, l ++ [op] <+: ops → ∀ t, run S registry (initial defaultStrategy) l = some t → t.Counted op := by
  refine RunLib.forall_prefix_iff_forall_step ?_ (fun l op hl => ?_) ops
  · intro t ht
    cases ht
    exact (fibCounted_iff (valid_initial _)).mpr (surplus_initial _)
  · rw [run_concat]
    cases hrun : run S registry (initial defaultStrategy) l with
    | none => simp
    | some t =>
      have hvalid := run_valid defaultStrategy hrun
      have hsurplus := (fibCounted_iff hvalid).mp (hl t hrun)
      simp only [Option.bind_some, Option.some.injEq, forall_eq']
      cases hstep : step S registry t op with
      | none =>
        refine iff_of_true (fun _ h => absurd h (Option.some_ne_none _).symm) ?_
        cases op with
        | fibErase prefixName => cases hstep
        | _ => trivial
      | some t' =>
        have hvalid' := (step_changes hstep).valid hvalid
        rw [← step_surplus_eq_iff hvalid hstep, hsurplus]
        simp only [Option.some.injEq, forall_eq']
        exact fibCounted_iff hvalid'

/-- `Fib::insert("/A/B")` and then `Fib::erase("/A")`: the node of `/A` is there, and has no FIB entry. The FIB
has an entry, and its size is zero. -/
theorem not_fibCounted_eraseGap :
    ¬ ∀ l, l <+: [TableOp.fibInsert nameAB, .fibErase nameA] →
      ∀ t, run insertionSort freeRegistry (initial (some nameA)) l = some t → t.FibCounted := by
  intro h
  have hcounted := (h _ (List.prefix_refl _) _ rfl).1
  revert hcounted
  decide

end Ns3Ndn.Tables
