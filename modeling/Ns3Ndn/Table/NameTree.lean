import Ns3Ndn.Lib.OrdMap
import Ns3Ndn.Lib.Lpm
import Ns3Ndn.Fw.Pit

/-!
# The name tree

`NFD/daemon/table/name-tree.cpp` and `name-tree-entry.cpp`. FIB, PIT, Measurements and StrategyChoice attach
their entries to the nodes of one tree, whose nodes are found by name: `Table.Hashtable` shows that the
hashtable is a finite map, so a node is taken to be its name here. A node has a pointer to its parent and a
vector of children, and is erased when it has neither children nor table entries.

* `tablesAt_lookup`, `tablesAt_eraseIfEmpty`: growing and pruning the tree leaves the table entries as they are;
* **`findLongestPrefixMatchPit_eq`**: the match of a PIT entry is that of its name.
-/

namespace Ns3Ndn

open OrdLib LpmLib

/-! ## Nodes -/

abbrev StrategyInfo := List ℕ

structure NtRecord where
  face : FaceId
  info : StrategyInfo := []
deriving DecidableEq

/-- A PIT entry as the name tree holds it. `nameTreeEntry` is the node it is attached to. -/
structure NtPitEntry where
  id : ℕ
  interest : Interest
  nameTreeEntry : Name
  inRecords : List NtRecord := []
  outRecords : List NtRecord := []
  info : StrategyInfo := []
deriving DecidableEq

/-- The table entries on a node: the next hops of the FIB entry, the PIT entries, the StrategyInfo of the
measurements entry, and the instance name of the strategy chosen. -/
structure TableEntries where
  fibEntry : Option (List NextHop) := none
  pitEntries : List NtPitEntry := []
  measurementsEntry : Option StrategyInfo := none
  strategyChoiceEntry : Option Name := none
deriving DecidableEq

/-- A node. -/
structure NtEntry extends TableEntries where
  parent : Option Name := none
  children : List Name := []
deriving DecidableEq

def NtEntry.hasChildren (e : NtEntry) : Bool := ! e.children.isEmpty

def TableEntries.hasTableEntries (e : TableEntries) : Bool :=
  e.fibEntry.isSome || ! e.pitEntries.isEmpty || e.measurementsEntry.isSome || e.strategyChoiceEntry.isSome

def NtEntry.isEmpty (e : NtEntry) : Bool := ! e.hasChildren && ! e.hasTableEntries

theorem TableEntries.hasTableEntries_eq_false_iff {e : TableEntries} :
    e.hasTableEntries = false ↔ e = {} := by
  obtain ⟨fib, pit, measurements, choice⟩ := e
  simp [hasTableEntries, and_assoc]

/-- `NameTree::getMaxDepth()`. -/
def maxDepth : ℕ := 32

abbrev NameTree := OrdMap Name NtEntry

namespace NameTree

/-! ## Operations -/

section Operations

variable (nt : NameTree)

/-- A turn of the loop of `lookup`: `m_ht.insert`, and `setParent` for a new node. -/
def insertNode (name : Name) : NameTree :=
  if (nt.find? name).isSome then nt
  else if name = [] then nt.insert name {}
  else
    (nt.insert name { parent := some name.dropLast }).modify name.dropLast fun e =>
      { e with children := e.children ++ [name] }

def lookup (name : Name) (prefixLen : ℕ) : NameTree :=
  (List.range (prefixLen + 1)).foldl (fun nt i => nt.insertNode (name.take i)) nt

def eraseNode (name : Name) (parent : Option Name) : NameTree :=
  (match parent with
    | none => nt
    | some parent => nt.modify parent fun e => { e with children := e.children.erase name }).erase name

def eraseIfEmptyFrom (nt : NameTree) (canEraseAncestors : Bool) : (fuel : ℕ) → (name : Name) → NameTree
  | 0, _ => nt
  | fuel + 1, name =>
    match nt.find? name with
    | none => nt
    | some e =>
      if e.isEmpty then
        let nt := nt.eraseNode name e.parent
        match canEraseAncestors, e.parent with
        | true, some parent => eraseIfEmptyFrom nt true fuel parent
        | _, _ => nt
      else nt

def eraseIfEmpty (name : Name) (canEraseAncestors : Bool) : NameTree :=
  nt.eraseIfEmptyFrom canEraseAncestors (name.length + 1) name

/-- `findExactMatch`. -/
def findExactMatch (name : Name) (prefixLen : ℕ) : Option Name :=
  let prefixLen := min name.length prefixLen
  if maxDepth < prefixLen then none
  else if (nt.find? (name.take prefixLen)).isSome then some (name.take prefixLen) else none

abbrev EntrySelector := Name → NtEntry → Bool

variable (sel : EntrySelector)

def selected (name : Name) : Option NtEntry := (nt.find? name).filter (sel name)

def findLongestPrefixMatch (name : Name) : Option Name :=
  (lpm (nt.selected sel) name (min name.length maxDepth)).map Prod.fst

/-- `findLongestPrefixMatch(entry)`: up along the parents. -/
def findUp : (fuel : ℕ) → (name : Name) → Option Name
  | 0, _ => none
  | fuel + 1, name =>
    match nt.find? name with
    | none => none
    | some e =>
      if sel name e then some name
      else
        match e.parent with
        | none => none
        | some parent => findUp fuel parent

def findLongestPrefixMatchEntry (name : Name) : Option Name := nt.findUp sel (name.length + 1) name

/-- The loop of `findLongestPrefixMatch(pitEntry)` that goes deeper, over `n` lengths from `i` on. -/
def goDeeper (name : Name) : (n i : ℕ) → (nte : Name) → Name
  | 0, _, nte => nte
  | n + 1, i, nte =>
    match nt.findExactMatch name i with
    | none => nte
    | some exact => goDeeper name n (i + 1) exact

/-- `findLongestPrefixMatch(pitEntry)`. -/
def findLongestPrefixMatchPit (e : NtPitEntry) : Option Name :=
  let name := e.interest.name
  let depth := min name.length maxDepth
  let nte := e.nameTreeEntry
  let nte :=
    if nte.length < name.length then nt.goDeeper name (depth - nte.length) (nte.length + 1) nte else nte
  nt.findLongestPrefixMatchEntry sel nte

end Operations

/-! ## Table entries -/

def tablesAt (nt : NameTree) (name : Name) : TableEntries :=
  ((nt.find? name).map NtEntry.toTableEntries).getD {}

def edit (nt : NameTree) (name : Name) (f : TableEntries → TableEntries) : NameTree :=
  nt.modify name fun e => { e with toTableEntries := f e.toTableEntries }

variable {nt : NameTree}

theorem isSome_of_tablesAt {name : Name} (h : nt.tablesAt name ≠ {}) : (nt.find? name).isSome := by
  unfold tablesAt at h
  cases hfind : nt.find? name with
  | none => simp [hfind] at h
  | some e => rfl

theorem tablesAt_of_find? {name : Name} {e : NtEntry} (h : nt.find? name = some e) :
    nt.tablesAt name = e.toTableEntries := by
  rw [tablesAt, h]
  rfl

theorem tablesAt_edit {name : Name} (hname : (nt.find? name).isSome) (f : TableEntries → TableEntries)
    (m : Name) : (nt.edit name f).tablesAt m = if name = m then f (nt.tablesAt m) else nt.tablesAt m := by
  unfold tablesAt edit
  rw [OrdMap.find?_modify]
  split_ifs with hm
  · subst hm
    obtain ⟨e, he⟩ := Option.isSome_iff_exists.mp hname
    rw [he]
    rfl
  · rfl

/-! ## Nodes that are made and erased -/

theorem dropLast_ne_self {name : Name} (h : name ≠ []) : name.dropLast ≠ name := by
  intro heq
  have hlength := congrArg List.length heq
  rw [List.length_dropLast] at hlength
  have := List.length_pos_iff.mpr h
  omega

theorem find?_insertNode {name : Name} (hnew : nt.find? name = none) (hne : name ≠ []) (m : Name) :
    (nt.insertNode name).find? m =
      if name = m then some { parent := some name.dropLast }
      else if name.dropLast = m then
        (nt.find? m).map fun e => { e with children := e.children ++ [name] }
      else nt.find? m := by
  unfold insertNode
  rw [if_neg (by simp [hnew]), if_neg hne, OrdMap.find?_modify, OrdMap.find?_insert]
  by_cases hm : name = m
  · subst hm
    rw [if_pos rfl, if_pos rfl, if_neg (dropLast_ne_self hne)]
  · rw [if_neg hm, if_neg hm]
    split_ifs <;> rfl

theorem isSome_insertNode (name m : Name) :
    ((nt.insertNode name).find? m).isSome = true ↔ (nt.find? m).isSome = true ∨ m = name := by
  cases hfind : nt.find? name with
  | some e =>
    rw [insertNode, if_pos (by simp [hfind])]
    refine ⟨Or.inl, ?_⟩
    rintro (h | rfl)
    · exact h
    · rw [hfind]
      rfl
  | none =>
    by_cases hne : name = []
    · subst hne
      rw [insertNode, if_neg (by simp [hfind]), if_pos rfl, OrdMap.find?_insert]
      split_ifs with hm
      · simp [hm]
      · simp [Ne.symm hm]
    · rw [find?_insertNode hfind hne]
      split_ifs with hm hm'
      · simp [hm]
      · simp [Ne.symm hm]
      · simp [Ne.symm hm]

theorem tablesAt_insertNode (name m : Name) : (nt.insertNode name).tablesAt m = nt.tablesAt m := by
  cases hfind : nt.find? name with
  | some e => rw [insertNode, if_pos (by simp [hfind])]
  | none =>
    unfold tablesAt
    by_cases hne : name = []
    · subst hne
      rw [insertNode, if_neg (by simp [hfind]), if_pos rfl, OrdMap.find?_insert]
      split_ifs with hm
      · rw [← hm, hfind]
        rfl
      · rfl
    · rw [find?_insertNode hfind hne]
      split_ifs with hm hm'
      · rw [← hm, hfind]
        rfl
      · rw [Option.map_map]
        rfl
      · rfl

theorem find?_eraseNode (nt : NameTree) (name : Name) (parent : Option Name) (m : Name) :
    (nt.eraseNode name parent).find? m =
      if name = m then none
      else if parent = some m then
        (nt.find? m).map fun e => { e with children := e.children.erase name }
      else nt.find? m := by
  unfold eraseNode
  rw [OrdMap.find?_erase]
  cases parent with
  | none =>
    by_cases hm : name = m
    · rw [if_pos hm, if_pos hm]
    · rw [if_neg hm, if_neg hm, if_neg (Option.some_ne_none m).symm]
  | some parent =>
    rw [OrdMap.find?_modify]
    simp only [Option.some_inj]
    split_ifs <;> rfl

theorem tablesAt_eraseNode {name : Name} {e : NtEntry} (he : nt.find? name = some e) (hempty : e.isEmpty)
    (parent : Option Name) (m : Name) : (nt.eraseNode name parent).tablesAt m = nt.tablesAt m := by
  have htables : e.toTableEntries = {} := by
    rw [NtEntry.isEmpty, Bool.and_eq_true, Bool.not_eq_true', Bool.not_eq_true'] at hempty
    exact TableEntries.hasTableEntries_eq_false_iff.mp hempty.2
  unfold tablesAt
  rw [find?_eraseNode]
  split_ifs with hm hm'
  · rw [← hm, he, Option.map_some, htables]
    rfl
  · rw [Option.map_map]
    rfl
  · rfl

/-- **The nodes form a tree**: a node points to its parent, the parent exists and has it among its children,
and no node is too deep. -/
structure Shaped (nt : NameTree) : Prop where
  parent : ∀ {n e}, nt.find? n = some e → e.parent = if n = [] then none else some n.dropLast
  closed : ∀ {n}, (nt.find? n).isSome → n ≠ [] → (nt.find? n.dropLast).isSome
  nodup : ∀ {n e}, nt.find? n = some e → e.children.Nodup
  children : ∀ {n e}, nt.find? n = some e → ∀ c, c ∈ e.children ↔
    (nt.find? c).isSome ∧ c ≠ [] ∧ c.dropLast = n
  depth : ∀ {n}, (nt.find? n).isSome → n.length ≤ maxDepth

theorem Shaped.edit (h : nt.Shaped) (name : Name) (f : TableEntries → TableEntries) :
    (nt.edit name f).Shaped := by
  have hfind : ∀ n, (nt.edit name f).find? n = if name = n then
      (nt.find? n).map (fun e => { e with toTableEntries := f e.toTableEntries }) else nt.find? n :=
    fun n => by
      rw [NameTree.edit, OrdMap.find?_modify]
      split_ifs <;> rfl
  have hsome : ∀ n, ((nt.edit name f).find? n).isSome = (nt.find? n).isSome := fun n => by
    rw [hfind]
    split_ifs <;> simp
  have hlinks : ∀ {n e'}, (nt.edit name f).find? n = some e' →
      ∃ e, nt.find? n = some e ∧ e'.parent = e.parent ∧ e'.children = e.children := by
    intro n e' he'
    rw [hfind] at he'
    split_ifs at he'
    · obtain ⟨e, he, rfl⟩ := Option.map_eq_some_iff.mp he'
      exact ⟨e, he, rfl, rfl⟩
    · exact ⟨e', he', rfl, rfl⟩
  refine ⟨fun {n e'} he' => ?_, fun {n} hn hne => ?_, fun {n e'} he' => ?_, fun {n e'} he' c => ?_,
    fun {n} hn => h.depth (hsome n ▸ hn)⟩
  · obtain ⟨e, he, hparent, -⟩ := hlinks he'
    rw [hparent]
    exact h.parent he
  · rw [hsome] at hn ⊢
    exact h.closed hn hne
  · obtain ⟨e, he, -, hchildren⟩ := hlinks he'
    rw [hchildren]
    exact h.nodup he
  · obtain ⟨e, he, -, hchildren⟩ := hlinks he'
    rw [hchildren, hsome]
    exact h.children he c

theorem Shaped.insertNode (h : nt.Shaped) {name : Name} (hdepth : name.length ≤ maxDepth)
    (hparent : name ≠ [] → (nt.find? name.dropLast).isSome) : (nt.insertNode name).Shaped := by
  cases hnew : nt.find? name with
  | some e =>
    rw [NameTree.insertNode, if_pos (by simp [hnew])]
    exact h
  | none =>
    have hnone : ∀ {n}, (nt.find? n).isSome → n ≠ name := by
      rintro n hn rfl
      rw [hnew] at hn
      cases hn
    -- a node that is not in the tree has no children in it
    have horphan : ∀ c, (nt.find? c).isSome → c ≠ [] → c.dropLast ≠ name := fun c hc hne =>
      hnone (h.closed hc hne)
    have hdepth' : ∀ {n}, ((nt.insertNode name).find? n).isSome → n.length ≤ maxDepth := by
      intro n hn
      rcases (isSome_insertNode name n).mp hn with hn | rfl
      · exact h.depth hn
      · exact hdepth
    have hclosed : ∀ {n}, ((nt.insertNode name).find? n).isSome → n ≠ [] →
        ((nt.insertNode name).find? n.dropLast).isSome := by
      intro n hn hne
      refine (isSome_insertNode name n.dropLast).mpr (Or.inl ?_)
      rcases (isSome_insertNode name n).mp hn with hn | rfl
      · exact h.closed hn hne
      · exact hparent hne
    by_cases hne : name = []
    · subst hne
      have hfind : ∀ n, (nt.insertNode []).find? n = if [] = n then some {} else nt.find? n := fun n => by
        rw [NameTree.insertNode, if_neg (by simp [hnew]), if_pos rfl, OrdMap.find?_insert]
        split_ifs <;> rfl
      -- without a root the tree is empty
      have hempty : ∀ n, nt.find? n = none := by
        intro n
        induction n using List.reverseRecOn with
        | nil => exact hnew
        | append_singleton n c ih =>
          by_contra hsome
          have := h.closed (Option.ne_none_iff_isSome.mp hsome) (by simp)
          rw [List.dropLast_concat, ih] at this
          cases this
      refine ⟨fun {n e} he => ?_, hclosed, fun {n e} he => ?_, fun {n e} he c => ?_, hdepth'⟩
      all_goals
        rw [hfind] at he
        split_ifs at he with hn
      · rw [← Option.some.inj he, ← hn, if_pos rfl]
      · rw [hempty] at he
        cases he
      · rw [← Option.some.inj he]
        exact List.nodup_nil
      · rw [hempty] at he
        cases he
      · rw [← Option.some.inj he, ← hn, isSome_insertNode, hempty]
        refine iff_of_false List.not_mem_nil ?_
        rintro ⟨hc | hc, hcne, -⟩
        · cases hc
        · exact hcne hc
      · rw [hempty] at he
        cases he
    · have hfind := find?_insertNode hnew hne
      refine ⟨fun {n e} he => ?_, hclosed, fun {n e} he => ?_, fun {n e} he c => ?_, hdepth'⟩
      all_goals
        rw [hfind] at he
        split_ifs at he with hn hn'
      · rw [← Option.some.inj he, ← hn, if_neg hne]
      · obtain ⟨e₀, he₀, rfl⟩ := Option.map_eq_some_iff.mp he
        exact (h.parent he₀ : e₀.parent = _)
      · exact h.parent he
      · rw [← Option.some.inj he]
        exact List.nodup_nil
      · obtain ⟨e₀, he₀, rfl⟩ := Option.map_eq_some_iff.mp he
        refine (h.nodup he₀).append (List.nodup_singleton _) (List.disjoint_singleton.mpr fun hin => ?_)
        exact hnone ((h.children he₀ name).mp hin).1 rfl
      · exact h.nodup he
      · rw [← Option.some.inj he, ← hn, isSome_insertNode]
        refine iff_of_false List.not_mem_nil ?_
        rintro ⟨hc | rfl, hcne, hcn⟩
        · exact horphan c hc hcne hcn
        · exact dropLast_ne_self hcne hcn
      · obtain ⟨e₀, he₀, rfl⟩ := Option.map_eq_some_iff.mp he
        rw [isSome_insertNode, List.mem_append, List.mem_singleton, h.children he₀ c]
        constructor
        · rintro (⟨hc, hrest⟩ | rfl)
          · exact ⟨Or.inl hc, hrest⟩
          · exact ⟨Or.inr rfl, hne, hn'⟩
        · rintro ⟨hc | rfl, hrest⟩
          · exact Or.inl ⟨hc, hrest⟩
          · exact Or.inr rfl
      · rw [isSome_insertNode, h.children he c]
        refine ⟨fun hc => ⟨Or.inl hc.1, hc.2⟩, ?_⟩
        rintro ⟨hc | rfl, hrest⟩
        · exact ⟨hc, hrest⟩
        · exact absurd hrest.2 hn'

theorem isSome_lookup (name : Name) (prefixLen : ℕ) (m : Name) :
    ((nt.lookup name prefixLen).find? m).isSome = true ↔
      (nt.find? m).isSome = true ∨ ∃ i ≤ prefixLen, m = name.take i := by
  unfold lookup
  induction prefixLen with
  | zero =>
    rw [List.range_one, List.foldl_cons, List.foldl_nil, isSome_insertNode]
    simp
  | succ k ih =>
    rw [List.range_succ, List.foldl_append, List.foldl_cons, List.foldl_nil, isSome_insertNode, ih, or_assoc]
    refine or_congr_right ?_
    constructor
    · rintro (⟨i, hi, rfl⟩ | rfl)
      · exact ⟨i, Nat.le_succ_of_le hi, rfl⟩
      · exact ⟨k + 1, le_rfl, rfl⟩
    · rintro ⟨i, hi, rfl⟩
      rcases Nat.le_succ_iff.mp hi with hi | rfl
      · exact Or.inl ⟨i, hi, rfl⟩
      · exact Or.inr rfl

theorem tablesAt_lookup (name : Name) (prefixLen : ℕ) (m : Name) :
    (nt.lookup name prefixLen).tablesAt m = nt.tablesAt m :=
  List.foldlRecOn (motive := fun nt' : NameTree => nt'.tablesAt m = nt.tablesAt m) _ _ rfl
    fun _ ih i _ => (tablesAt_insertNode (name.take i) m).trans ih

theorem Shaped.lookup (h : nt.Shaped) {name : Name} {prefixLen : ℕ} (hlen : prefixLen ≤ name.length)
    (hdepth : prefixLen ≤ maxDepth) : (nt.lookup name prefixLen).Shaped := by
  induction prefixLen with
  | zero =>
    unfold NameTree.lookup
    rw [List.range_one, List.foldl_cons, List.foldl_nil, List.take_zero]
    exact h.insertNode (Nat.zero_le _) fun hne => absurd rfl hne
  | succ k ih =>
    have hstep : nt.lookup name (k + 1) = (nt.lookup name k).insertNode (name.take (k + 1)) := by
      unfold NameTree.lookup
      rw [List.range_succ, List.foldl_append]
      rfl
    rw [hstep]
    refine (ih (Nat.le_of_succ_le hlen) (Nat.le_of_succ_le hdepth)).insertNode ?_ fun _ => ?_
    · rw [List.length_take]
      exact (min_le_left _ _).trans hdepth
    · refine (isSome_lookup name k _).mpr (Or.inr ⟨k, le_rfl, ?_⟩)
      rw [List.dropLast_eq_take, List.length_take_of_le hlen, List.take_take, Nat.add_sub_cancel,
        min_eq_left (Nat.le_succ k)]

/-! ## Pruning -/

theorem Shaped.eraseNode (h : nt.Shaped) {name : Name} {e : NtEntry} (he : nt.find? name = some e)
    (hempty : e.isEmpty) : (nt.eraseNode name e.parent).Shaped := by
  have hleaf : ∀ {c}, (nt.find? c).isSome → c ≠ [] → c.dropLast ≠ name := by
    intro c hc hne hparent
    have hmem := (h.children he c).mpr ⟨hc, hne, hparent⟩
    have hnil : e.children = [] := by
      rw [NtEntry.isEmpty, Bool.and_eq_true, NtEntry.hasChildren, Bool.not_not] at hempty
      exact List.isEmpty_iff.mp hempty.1
    rw [hnil] at hmem
    cases hmem
  have hparent : ∀ m, e.parent = some m ↔ name ≠ [] ∧ name.dropLast = m := by
    intro m
    rw [h.parent he]
    split_ifs with hnil
    · simp [hnil]
    · simp [hnil]
  have hfind := nt.find?_eraseNode name e.parent
  have hsome : ∀ n, ((nt.eraseNode name e.parent).find? n).isSome = true ↔
      (nt.find? n).isSome = true ∧ n ≠ name := by
    intro n
    rw [hfind]
    split_ifs with hn hn'
    · simp [hn]
    · simp [Ne.symm hn]
    · simp [Ne.symm hn]
  refine ⟨fun {n e'} he' => ?_, fun {n} hn hne => ?_, fun {n e'} he' => ?_, fun {n e'} he' c => ?_,
    fun {n} hn => h.depth ((hsome n).mp hn).1⟩
  · rw [hfind] at he'
    split_ifs at he' with hn hn'
    · obtain ⟨e₀, he₀, rfl⟩ := Option.map_eq_some_iff.mp he'
      exact (h.parent he₀ : e₀.parent = _)
    · exact h.parent he'
  · rw [hsome] at hn ⊢
    exact ⟨h.closed hn.1 hne, hleaf hn.1 hne⟩
  · rw [hfind] at he'
    split_ifs at he' with hn hn'
    · obtain ⟨e₀, he₀, rfl⟩ := Option.map_eq_some_iff.mp he'
      exact (h.nodup he₀).erase name
    · exact h.nodup he'
  · rw [hfind] at he'
    rw [hsome]
    split_ifs at he' with hn hn'
    · obtain ⟨e₀, he₀, rfl⟩ := Option.map_eq_some_iff.mp he'
      change c ∈ e₀.children.erase name ↔ _
      rw [(h.nodup he₀).mem_erase_iff, h.children he₀ c]
      tauto
    · rw [h.children he' c]
      refine ⟨fun hc => ⟨⟨hc.1, ?_⟩, hc.2⟩, fun hc => ⟨hc.1.1, hc.2⟩⟩
      rintro rfl
      exact hn' ((hparent n).mpr hc.2)

/-- **Pruning keeps the shape and the table entries.** -/
theorem Shaped.eraseIfEmptyFrom (h : nt.Shaped) (canEraseAncestors : Bool) (fuel : ℕ) (name : Name) :
    (nt.eraseIfEmptyFrom canEraseAncestors fuel name).Shaped ∧
      ∀ m, (nt.eraseIfEmptyFrom canEraseAncestors fuel name).tablesAt m = nt.tablesAt m := by
  induction fuel generalizing nt name with
  | zero => exact ⟨h, fun _ => rfl⟩
  | succ fuel ih =>
    rw [NameTree.eraseIfEmptyFrom]
    cases he : nt.find? name with
    | none => exact ⟨h, fun _ => rfl⟩
    | some e =>
      dsimp only
      split_ifs with hempty
      · have hshaped := h.eraseNode he hempty
        have htables := tablesAt_eraseNode he hempty e.parent
        split
        case h_1 parent _ =>
          obtain ⟨hshaped', htables'⟩ := ih hshaped parent
          exact ⟨hshaped', fun m => (htables' m).trans (htables m)⟩
        · exact ⟨hshaped, htables⟩
      · exact ⟨h, fun _ => rfl⟩

theorem Shaped.eraseIfEmpty (h : nt.Shaped) (name : Name) (canEraseAncestors : Bool) :
    (nt.eraseIfEmpty name canEraseAncestors).Shaped := (h.eraseIfEmptyFrom canEraseAncestors _ name).1

theorem Shaped.tablesAt_eraseIfEmpty (h : nt.Shaped) (name : Name) (canEraseAncestors : Bool) (m : Name) :
    (nt.eraseIfEmpty name canEraseAncestors).tablesAt m = nt.tablesAt m :=
  (h.eraseIfEmptyFrom canEraseAncestors _ name).2 m

theorem shaped_empty : Shaped OrdMap.empty := by
  refine ⟨?_, ?_, ?_, ?_, ?_⟩ <;> simp

/-! ## Longest prefix match -/

variable {sel : EntrySelector}

theorem Shaped.isSome_of_isPrefix (h : nt.Shaped) {m n : Name} (hm : m <+: n) (hn : (nt.find? n).isSome) :
    (nt.find? m).isSome := by
  induction n using List.reverseRecOn with
  | nil =>
    rw [List.prefix_nil.mp hm]
    exact hn
  | append_singleton n c ih =>
    rcases List.prefix_concat_iff.mp hm with rfl | hm
    · exact hn
    · refine ih hm ?_
      have := h.closed hn (by simp)
      rwa [List.dropLast_concat] at this

theorem selected_eq_none {name : Name} (h : ¬ (nt.find? name).isSome) : nt.selected sel name = none := by
  rw [selected, Option.not_isSome_iff_eq_none.mp h]
  rfl

/-- **Going up along the parents goes through the prefixes.** -/
theorem Shaped.findUp_eq (h : nt.Shaped) {name : Name} (hname : (nt.find? name).isSome) {fuel : ℕ}
    (hfuel : name.length < fuel) :
    nt.findUp sel fuel name = (lpm (nt.selected sel) name name.length).map Prod.fst := by
  induction fuel generalizing name with
  | zero => cases hfuel
  | succ fuel ih =>
    obtain ⟨e, he⟩ := Option.isSome_iff_exists.mp hname
    have hself : nt.selected sel name = if sel name e then some e else none := by
      rw [selected, he]
      cases hsel : sel name e <;> simp [hsel]
    rw [findUp, he]
    dsimp only
    rw [h.parent he]
    rcases List.eq_nil_or_concat name with rfl | ⟨name, c, rfl⟩
    · rw [if_pos rfl, List.length_nil, lpm, hself]
      cases sel [] e <;> rfl
    · rw [List.concat_eq_append] at *
      have hname' : (nt.find? name).isSome := h.isSome_of_isPrefix (List.prefix_append _ _) hname
      have hlen : (name ++ [c]).length = name.length + 1 := List.length_append
      have htake : (name ++ [c]).take (name.length + 1) = name ++ [c] := by
        rw [← hlen, List.take_length]
      rw [if_neg (List.append_ne_nil_of_right_ne_nil name (List.cons_ne_nil c [])), hlen, lpm, htake, hself,
        List.dropLast_concat]
      cases sel (name ++ [c]) e with
      | true => rfl
      | false =>
        rw [if_neg Bool.false_ne_true, if_neg Bool.false_ne_true]
        dsimp only
        rw [ih hname' (by omega), lpm_append [c] le_rfl]

theorem Shaped.findLongestPrefixMatchEntry_eq (h : nt.Shaped) {name : Name}
    (hname : (nt.find? name).isSome) :
    nt.findLongestPrefixMatchEntry sel name = nt.findLongestPrefixMatch sel name := by
  rw [findLongestPrefixMatchEntry, h.findUp_eq hname (Nat.lt_succ_self _), findLongestPrefixMatch,
    min_eq_left (h.depth hname)]

theorem Shaped.goDeeper_spec (h : nt.Shaped) (name : Name) {n i : ℕ}
    (hi : i + n ≤ min name.length maxDepth) (hnte : (nt.find? (name.take i)).isSome) :
    ∃ j ≤ i + n, nt.goDeeper name n (i + 1) (name.take i) = name.take j ∧ i ≤ j ∧
      (nt.find? (name.take j)).isSome ∧ ∀ k, j < k → k ≤ i + n → ¬ (nt.find? (name.take k)).isSome := by
  induction n generalizing i with
  | zero => exact ⟨i, le_rfl, rfl, le_rfl, hnte, fun k hik hk => absurd hik (Nat.not_lt.mpr hk)⟩
  | succ n ih =>
    have hmin : min name.length (i + 1) = i + 1 := by omega
    have hdepth : ¬ maxDepth < i + 1 := by omega
    rw [goDeeper, findExactMatch, hmin, if_neg hdepth]
    by_cases hnext : (nt.find? (name.take (i + 1))).isSome
    · rw [if_pos hnext]
      obtain ⟨j, hj, heq, hij, hfind, hnone⟩ := ih (i := i + 1) (by omega) hnext
      refine ⟨j, by omega, heq, by omega, hfind, fun k hjk hk => hnone k hjk (by omega)⟩
    · rw [if_neg hnext]
      refine ⟨i, by omega, rfl, le_rfl, hnte, fun k hik hk hfind => hnext ?_⟩
      refine h.isSome_of_isPrefix ?_ hfind
      exact List.take_prefix_take_left (by omega)

/-- **The match of a PIT entry is that of its name**, if the entry is attached to a node above its name. -/
theorem Shaped.findLongestPrefixMatchPit_eq (h : nt.Shaped) {e : NtPitEntry}
    (hnte : (nt.find? e.nameTreeEntry).isSome) (hpre : e.nameTreeEntry <+: e.interest.name) :
    nt.findLongestPrefixMatchPit sel e = nt.findLongestPrefixMatch sel e.interest.name := by
  unfold findLongestPrefixMatchPit
  dsimp only
  generalize e.interest.name = name at hpre ⊢
  generalize e.nameTreeEntry = nte at hpre hnte ⊢
  have htake : nte = name.take nte.length := List.prefix_iff_eq_take.mp hpre
  have hlen : nte.length ≤ min name.length maxDepth := le_min hpre.length_le (h.depth hnte)
  by_cases hlt : nte.length < name.length
  · rw [if_pos hlt]
    obtain ⟨j, hj, heq, -, hfind, hnone⟩ := h.goDeeper_spec name (i := nte.length)
      (n := min name.length maxDepth - nte.length) (by omega) (htake ▸ hnte)
    rw [← htake] at heq
    rw [heq, h.findLongestPrefixMatchEntry_eq hfind, findLongestPrefixMatch, findLongestPrefixMatch]
    have hjlen : (name.take j).length = j := List.length_take_of_le (by omega)
    rw [hjlen, min_eq_left (by omega)]
    -- the names below the deepest node are no nodes
    have hbelow : Below (nt.selected sel) (name.take j) (name.take (min name.length maxDepth)) := by
      refine ⟨List.take_prefix_take_left (by omega), fun m hm hmj => selected_eq_none fun hsome => ?_⟩
      obtain ⟨hm, hmlen⟩ := List.prefix_take_iff.mp hm
      refine hnone m.length (hjlen ▸ hmj) (by omega) ?_
      rw [← List.prefix_iff_eq_take.mp hm]
      exact hsome
    rw [lpm_of_below (min_le_left _ _) hbelow, hjlen]
  · rw [if_neg hlt, h.findLongestPrefixMatchEntry_eq hnte]
    rw [htake, List.take_of_length_le (Nat.not_lt.mp hlt)]

def Accepts (nt : NameTree) (sel : EntrySelector) (name : Name) : Prop :=
  ∃ e, nt.find? name = some e ∧ sel name e = true

theorem selected_isSome {name : Name} : (nt.selected sel name).isSome = true ↔ nt.Accepts sel name := by
  unfold selected Accepts
  cases nt.find? name <;> simp

/-- **The match is the deepest node** that is a prefix of the name, is not too deep and is accepted. -/
theorem findLongestPrefixMatch_eq_some_iff {name m : Name} :
    nt.findLongestPrefixMatch sel name = some m ↔
      m <+: name ∧ m.length ≤ maxDepth ∧ nt.Accepts sel m ∧
        ∀ m', m' <+: name → m'.length ≤ maxDepth → nt.Accepts sel m' → m'.length ≤ m.length := by
  unfold findLongestPrefixMatch
  have hmin : min name.length maxDepth ≤ name.length := min_le_left _ _
  simp only [Option.map_eq_some_iff, Prod.exists, exists_and_right, exists_eq_right]
  constructor
  · rintro ⟨e, he⟩
    rw [lpm_eq_some_iff hmin] at he
    refine ⟨he.isPrefix, he.length_le.trans (min_le_right _ _), ?_, fun m' hm' hdepth haccepts => ?_⟩
    · rw [← selected_isSome, he.value]
      rfl
    · by_contra hlt
      have hnone := he.longest m' hm' (le_min hm'.length_le hdepth) (Nat.not_le.mp hlt)
      rw [← selected_isSome, hnone] at haccepts
      cases haccepts
  · rintro ⟨hm, hdepth, haccepts, hlongest⟩
    obtain ⟨e, he⟩ := Option.isSome_iff_exists.mp (selected_isSome.mpr haccepts)
    refine ⟨e, (lpm_eq_some_iff hmin).mpr ⟨hm, le_min hm.length_le hdepth, he, fun m' hm' hk hlt => ?_⟩⟩
    rw [← Option.not_isSome_iff_eq_none, selected_isSome]
    exact fun haccepts' =>
      Nat.not_le.mpr hlt (hlongest m' hm' (hk.trans (min_le_right _ _)) haccepts')

end NameTree

end Ns3Ndn
