import Ns3Ndn.Table.Enumerate
import Ns3Ndn.Table.FullEnumerate
import Ns3Ndn.Table.PitRecords

/-!
# Removal of a face

`cleanupOnFaceRemoval` of `NFD/daemon/table/cleanup.cpp`, on the name tree with its hashtable: one pass over the hashtable
edits FIB and PIT entries and collects the nodes without table entries, and then these are erased where they have no
children, longer names first. The hashtable may be resized when one is erased.

* `Pruned`: what is left of the tree when some of the nodes to be erased have been looked at;
* **`cleanupOnFaceRemoval_spec`**: the face is gone, and just the nodes that have nothing below them are.
-/

namespace Ns3Ndn

open OrdLib NameTree

/-! ## The code -/

/-- The tables, with the hashtable that holds the nodes of the name tree. -/
structure HashedTables where
  ht : Hashtable
  tables : Tables

namespace HashedTables

section Cleanup

/-- `std::multimap::emplace`: after the items of the same key. -/
def emplace (depth node : ℕ) : List (ℕ × ℕ) → List (ℕ × ℕ)
  | [] => [(depth, node)]
  | item :: items => if depth < item.1 then (depth, node) :: item :: items else item :: emplace depth node items

/-- A turn of the first loop, with the nodes that may be empty by the depths of their names. -/
def cleanupNode (face : FaceId) (ht : Hashtable) (s : Tables × List (ℕ × ℕ)) (node : ℕ) : Option (Tables × List (ℕ × ℕ)) := do
  let c ← ht.heap node
  let name := c.val.name
  let t := s.1.cleanupNode face name
  some (t, if (t.tablesAt name).hasTableEntries then s.2 else emplace name.length node s.2)

/-- `NameTree::eraseIfEmpty(entry, false)`. -/
def eraseIfEmpty (O : HashtableOptions) (s : HashedTables) (node : ℕ) : Option HashedTables := do
  let c ← s.ht.heap node
  let e ← s.tables.nameTree.find? c.val.name
  if e.isEmpty then do
    let ht ← s.ht.erase O node
    some ⟨ht, { s.tables with nameTree := s.tables.nameTree.eraseNode c.val.name e.parent }⟩
  else some s

def noneIsEmpty (s : HashedTables) : Option Bool := do
  let nodes ← s.ht.fullEnumerate fun _ => true
  let entries ← nodes.mapM fun node => (s.ht.heap node).bind fun c => s.tables.nameTree.find? c.val.name
  some (s.ht.size = 0 || entries.all fun e => ! e.isEmpty)

def cleanupOnFaceRemoval (O : HashtableOptions) (s : HashedTables) (face : FaceId) : Option HashedTables := do
  let nodes ← s.ht.fullEnumerate fun _ => true
  let (t, maybeEmptyNtes) ← nodes.foldlM (cleanupNode face s.ht) (s.tables, [])
  let s ← maybeEmptyNtes.reverse.foldlM (fun s item => eraseIfEmpty O s item.2) ⟨s.ht, t⟩
  let holds ← s.noneIsEmpty
  if holds then some s else none

end Cleanup

end HashedTables

/-! ## Without a face -/

/-- **The table entries without a face.** A FIB entry whose only next hop was the face is gone. -/
def TableEntries.withoutFace (face : FaceId) (te : TableEntries) : TableEntries :=
  { te with
    fibEntry := te.fibEntry.bind fun nextHops =>
      if (∃ nh ∈ nextHops, nh.face = face) ∧ ∀ nh ∈ nextHops, nh.face = face then none
      else some (nextHops.filter (·.face != face))
    pitEntries := te.pitEntries.map fun e =>
      { e with
        inRecords := e.inRecords.filter (·.face != face)
        outRecords := e.outRecords.filter (·.face != face) } }

section WithoutFace

variable {S : NextHopSort} {registry : StrategyRegistry} {t : Tables} {face : FaceId} {name : Name}

theorem deleteInOutRecords_eq {e : NtPitEntry} (h : e.DistinctRecords) (face : FaceId) : Tables.deleteInOutRecords face e =
    { e with
      inRecords := e.inRecords.filter (·.face != face)
      outRecords := e.outRecords.filter (·.face != face) } := by
  unfold Tables.deleteInOutRecords
  rw [eraseP_eq_filter h.inRecords, eraseP_eq_filter h.outRecords]

/-- What `Fib::removeNextHop` leaves of a FIB entry. -/
theorem fibEntry_fibRemoveNextHop (hfib : ∀ nextHops, (t.tablesAt name).fibEntry = some nextHops → Tables.Ordered nextHops) (face : FaceId) :
    (((t.fibRemoveNextHop name face).getD t).tablesAt name) =
      { t.tablesAt name with fibEntry := ((t.tablesAt name).withoutFace face).fibEntry } := by
  unfold Tables.fibRemoveNextHop TableEntries.withoutFace
  cases hentry : (t.tablesAt name).fibEntry with
  | none =>
    rw [Option.bind_eq_bind, Option.bind_none, Option.getD_none, Option.bind_none, ← hentry]
  | some nextHops =>
    have hname : (t.nameTree.find? name).isSome := Tables.isSome_of_fibEntry (hentry ▸ rfl)
    have herase := eraseP_eq_filter (hfib nextHops hentry).1 face
    rw [Option.bind_eq_bind, Option.bind_some, Option.bind_some, Tables.removeNextHop, herase]
    by_cases hany : ∃ nh ∈ nextHops, nh.face = face
    · have hany' : nextHops.any (·.face == face) = true := by simpa using hany
      rw [if_pos hany']
      dsimp only
      by_cases hall : ∀ nh ∈ nextHops, nh.face = face
      · have hnil : nextHops.filter (·.face != face) = [] := List.filter_eq_nil_iff.mpr (by simpa using hall)
        rw [hnil, Option.getD_some, if_pos List.isEmpty_nil, if_pos ⟨hany, hall⟩]
        unfold Tables.fibEraseNode
        have hname' : ((t.edit name fun te => { te with fibEntry := some [] }).nameTree.find? name).isSome :=
          (Tables.isSome_edit ..).trans hname
        change ((t.edit name fun te => { te with fibEntry := some [] }).edit name fun te => { te with fibEntry := none }).tablesAt name = _
        rw [Tables.tablesAt_edit_self hname', Tables.tablesAt_edit_self hname]
      · have hne : (nextHops.filter (·.face != face)).isEmpty = false := by
          rw [Bool.eq_false_iff, Ne, List.isEmpty_iff, List.filter_eq_nil_iff]
          simpa using hall
        rw [Option.getD_some, if_neg (by simp [hne]), Tables.tablesAt_edit_self hname, if_neg (by simp [hall])]
    · have hany' : ¬ nextHops.any (·.face == face) = true := by simpa using hany
      have hfilter : nextHops.filter (·.face != face) = nextHops := by
        refine List.filter_eq_self.mpr fun nh hnh => bne_iff_ne.mpr fun hface => hany ⟨nh, hnh, hface⟩
      rw [if_neg hany', if_neg fun h => hany h.1, hfilter, ← hentry]
      rfl

/-- What the edits of a node keep is kept when its next hop is removed. -/
theorem fibRemoveNextHop_keeps {motive : NameTree → Prop} (h : motive t.nameTree)
    (hedit : ∀ t f, motive t.nameTree → motive (Tables.edit t name f).nameTree) (face : FaceId) :
    motive ((t.fibRemoveNextHop name face).getD t).nameTree := by
  unfold Tables.fibRemoveNextHop
  cases (t.tablesAt name).fibEntry with
  | none => exact h
  | some nextHops =>
    rw [Option.bind_eq_bind, Option.bind_some]
    cases Tables.removeNextHop nextHops face with
    | none => exact h
    | some nextHops' =>
      dsimp only
      rw [Option.getD_some]
      split_ifs
      · exact hedit (t.edit name _) (fun te => { te with fibEntry := none }) (hedit _ _ h)
      · exact hedit _ _ h

theorem isSome_fibRemoveNextHop (t : Tables) (name : Name) (face : FaceId) (m : Name) :
    (((t.fibRemoveNextHop name face).getD t).nameTree.find? m).isSome = (t.nameTree.find? m).isSome :=
  fibRemoveNextHop_keeps (motive := fun nt => (nt.find? m).isSome = (t.nameTree.find? m).isSome) rfl
    (fun _ _ => (Tables.isSome_edit ..).trans) face

theorem isSome_cleanupNode (t : Tables) (face : FaceId) (name m : Name) :
    ((t.cleanupNode face name).nameTree.find? m).isSome = (t.nameTree.find? m).isSome :=
  (Tables.isSome_edit ..).trans (isSome_fibRemoveNextHop t name face m)

theorem tablesAt_fibRemoveNextHop_of_ne {m : Name} (hne : name ≠ m) (face : FaceId) :
    ((t.fibRemoveNextHop name face).getD t).tablesAt m = t.tablesAt m := by
  refine fibRemoveNextHop_keeps (motive := fun nt => nt.tablesAt m = t.tablesAt m) rfl (fun u f hu => ?_) face
  change (u.edit name f).tablesAt m = _
  rw [Tables.tablesAt_edit_eq, if_neg fun h => hne h.1]
  exact hu

/-- **A turn of the first loop** removes the face from one node. -/
theorem tablesAt_cleanupNode (hvalid : t.Valid) (hdistinct : t.nameTree.DistinctRecords) (hname : (t.nameTree.find? name).isSome)
    (face : FaceId) (m : Name) : (t.cleanupNode face name).tablesAt m =
      if name = m then (t.tablesAt m).withoutFace face else t.tablesAt m := by
  have hname' : (((t.fibRemoveNextHop name face).getD t).nameTree.find? name).isSome :=
    (isSome_fibRemoveNextHop t name face name).trans hname
  unfold Tables.cleanupNode
  dsimp only
  rw [Tables.tablesAt_edit_eq]
  by_cases hm : name = m
  · subst hm
    rw [if_pos ⟨rfl, hname'⟩, if_pos rfl, fibEntry_fibRemoveNextHop (hvalid.entries name).ordered]
    unfold TableEntries.withoutFace
    congr 1
    exact List.map_congr_left fun e he => deleteInOutRecords_eq (hdistinct.distinct name e he) face
  · rw [if_neg fun h => hm h.1, if_neg hm, tablesAt_fibRemoveNextHop_of_ne hm]

end WithoutFace

/-! ## Pruning -/

namespace NameTree

def Live (nt : NameTree) (name : Name) : Prop := ∃ m, name <+: m ∧ (nt.tablesAt m).hasTableEntries = true

/-- **What is left of the tree** `nt₀` when the nodes in `done` have been looked at: the table entries, and the nodes that
are not in `done` or have something below them. -/
structure Pruned (nt₀ : NameTree) (done : List Name) (nt : NameTree) : Prop where
  shaped : nt.Shaped
  tables : ∀ m, nt.tablesAt m = nt₀.tablesAt m
  nodes : ∀ n, (nt.find? n).isSome ↔ (nt₀.find? n).isSome ∧ (n ∉ done ∨ nt₀.Live n)

variable {nt nt₀ : NameTree} {done : List Name} {name : Name}

theorem isSome_of_hasTableEntries (h : (nt.tablesAt name).hasTableEntries = true) : (nt.find? name).isSome := by
  refine isSome_of_tablesAt fun hempty => ?_
  rw [hempty] at h
  cases h

theorem isSome_eraseNode (nt : NameTree) (name : Name) (parent : Option Name) (m : Name) :
    ((nt.eraseNode name parent).find? m).isSome ↔ (nt.find? m).isSome ∧ m ≠ name := by
  rw [find?_eraseNode]
  split_ifs with hm hparent
  · simp [hm]
  · simp [Ne.symm hm]
  · simp [Ne.symm hm]

theorem Shaped.exists_child_live (h : nt.Shaped) (hlive : nt.Live name) (hbare : (nt.tablesAt name).hasTableEntries = false) :
    ∃ c, (nt.find? c).isSome ∧ c ≠ [] ∧ c.dropLast = name ∧ nt.Live c := by
  obtain ⟨m, hpre, hm⟩ := hlive
  have hne : name ≠ m := by
    rintro rfl
    rw [hbare] at hm
    cases hm
  have hlt : name.length < m.length := lt_of_le_of_ne hpre.length_le fun heq => hne (hpre.eq_of_length heq)
  have hsome := isSome_of_hasTableEntries hm
  refine ⟨m.take (name.length + 1), h.isSome_of_isPrefix (List.take_prefix _ _) hsome, ?_, ?_, m, List.take_prefix _ _, hm⟩
  · rw [Ne, List.take_eq_nil_iff]
    rintro (hzero | rfl)
    · cases hzero
    · cases hlt
  · rw [List.dropLast_eq_take, List.length_take, List.take_take, min_eq_left (Nat.succ_le_of_lt hlt), Nat.succ_sub_one,
      min_eq_left (Nat.le_succ _)]
    exact (List.prefix_iff_eq_take.mp hpre).symm

/-- **A node is looked at when all longer ones have been.** It is there, and it is empty just if nothing is below it. -/
theorem Pruned.step (h₀ : nt₀.Shaped) (h : nt₀.Pruned done nt) (hname : (nt₀.find? name).isSome) (hdone : name ∉ done)
    (hbare : (nt₀.tablesAt name).hasTableEntries = false)
    (hlonger : ∀ n, (nt₀.find? n).isSome → (nt₀.tablesAt n).hasTableEntries = false → name.length < n.length → n ∈ done) :
    ∃ e, nt.find? name = some e ∧ nt₀.Pruned (name :: done) (if e.isEmpty then nt.eraseNode name e.parent else nt) := by
  obtain ⟨e, he⟩ := Option.isSome_iff_exists.mp ((h.nodes name).mpr ⟨hname, .inl hdone⟩)
  have htables : e.hasTableEntries = false := by
    rw [← hbare, ← h.tables, tablesAt_of_find? he]
  have hempty : e.isEmpty = true ↔ ¬ nt₀.Live name := by
    have hchildren : e.isEmpty = true ↔ e.children = [] := by simp [NtEntry.isEmpty, NtEntry.hasChildren, htables]
    rw [hchildren]
    constructor
    · intro hnil hlive
      obtain ⟨c, hc, hne, hparent, hlive⟩ := h₀.exists_child_live hlive hbare
      have hmem := (h.shaped.children he c).mpr ⟨(h.nodes c).mpr ⟨hc, .inr hlive⟩, hne, hparent⟩
      rw [hnil] at hmem
      cases hmem
    · intro hdead
      refine List.eq_nil_iff_forall_not_mem.mpr fun c hc => hdead ?_
      obtain ⟨hsome, hne, hparent⟩ := (h.shaped.children he c).mp hc
      obtain ⟨hsome₀, hc⟩ := (h.nodes c).mp hsome
      have hpre := prefix_of_dropLast hparent
      -- a child that has no table entries has been looked at, as it is longer
      cases hentries : (nt₀.tablesAt c).hasTableEntries with
      | true => exact ⟨c, hpre, hentries⟩
      | false =>
        have hlength := length_of_dropLast hne hparent
        have hcdone := hlonger c hsome₀ hentries (by omega)
        obtain ⟨m, hcm, hm⟩ := hc.resolve_left (not_not.mpr hcdone)
        exact ⟨m, hpre.trans hcm, hm⟩
  have hcons : ∀ n, n ∉ name :: done ↔ n ≠ name ∧ n ∉ done := fun n => by rw [List.mem_cons, not_or]
  refine ⟨e, he, ?_⟩
  split_ifs with hempty'
  · refine ⟨h.shaped.eraseNode he hempty', fun m => ?_, fun n => ?_⟩
    · rw [tablesAt_eraseNode he hempty' e.parent, h.tables]
    · rw [isSome_eraseNode, h.nodes, hcons]
      have hdead := hempty.mp hempty'
      by_cases hn : n = name
      · simp [hn, hdead]
      · simp [hn]
  · refine ⟨h.shaped, h.tables, fun n => ?_⟩
    rw [h.nodes, hcons]
    have hlive : nt₀.Live name := not_not.mp fun hdead => hempty' (hempty.mpr hdead)
    by_cases hn : n = name
    · simp [hn, hlive]
    · simp [hn]

theorem Pruned.isEmpty (h : nt₀.Pruned done nt)
    (hall : ∀ n, (nt₀.find? n).isSome → (nt₀.tablesAt n).hasTableEntries = false → n ∈ done) {e : NtEntry}
    (he : nt.find? name = some e) : e.isEmpty = false := by
  by_contra hempty
  rw [Bool.not_eq_false, NtEntry.isEmpty, Bool.and_eq_true, NtEntry.hasChildren, Bool.not_not, List.isEmpty_iff,
    Bool.not_eq_true'] at hempty
  have hbare : (nt.tablesAt name).hasTableEntries = false := by rw [tablesAt_of_find? he]; exact hempty.2
  have hsome : (nt.find? name).isSome := by rw [he]; rfl
  obtain ⟨hsome₀, hname⟩ := (h.nodes name).mp hsome
  have hlive : nt₀.Live name := hname.resolve_left (not_not.mpr (hall name hsome₀ (by rw [← h.tables]; exact hbare)))
  have hlive' : nt.Live name := by
    obtain ⟨m, hpre, hm⟩ := hlive
    exact ⟨m, hpre, by rw [h.tables]; exact hm⟩
  obtain ⟨c, hc, hne, hparent, -⟩ := h.shaped.exists_child_live hlive' hbare
  have hmem := (h.shaped.children he c).mpr ⟨hc, hne, hparent⟩
  rw [hempty.1] at hmem
  cases hmem

end NameTree

/-! ## The loops -/

namespace HashedTables

open Hashtable

variable {S : NextHopSort} {registry : StrategyRegistry} {O : HashtableOptions} {hash : Name → ℕ} {m : Name → Option ℕ}
  {ht : Hashtable} {face : FaceId}

theorem emplace_perm (depth node : ℕ) (items : List (ℕ × ℕ)) : (emplace depth node items).Perm ((depth, node) :: items) := by
  induction items with
  | nil => exact .refl _
  | cons item items ih =>
    rw [emplace]
    split_ifs
    · exact .refl _
    · exact (ih.cons item).trans (.swap _ _ _)

theorem emplace_sorted (depth node : ℕ) {items : List (ℕ × ℕ)} (h : items.Pairwise fun a b => a.1 ≤ b.1) :
    (emplace depth node items).Pairwise fun a b => a.1 ≤ b.1 := by
  induction items with
  | nil => exact List.pairwise_singleton _ _
  | cons item items ih =>
    obtain ⟨hitem, hitems⟩ := List.pairwise_cons.mp h
    rw [emplace]
    split_ifs with hlt
    · refine List.pairwise_cons.mpr ⟨fun b hb => ?_, h⟩
      rcases List.mem_cons.mp hb with rfl | hb
      · exact hlt.le
      · exact hlt.le.trans (hitem b hb)
    · refine List.pairwise_cons.mpr ⟨fun b hb => ?_, ih hitems⟩
      rcases List.mem_cons.mp ((emplace_perm depth node items).subset hb) with rfl | hb
      · exact Nat.not_lt.mp hlt
      · exact hitem b hb

def nameOf (ht : Hashtable) (node : ℕ) : Name := ((ht.heap node).map fun c => c.val.name).getD []

theorem nameOf_eq {node : ℕ} {c : ChainLib.Cell HtNode} (h : ht.heap node = some c) : nameOf ht node = c.val.name := by
  rw [nameOf, h]
  rfl

/-- What the first loop has come to: the face is removed from the nodes that it was at, and those without table entries are
collected by their depths. -/
structure Swept (face : FaceId) (ht : Hashtable) (t : Tables) (nodes : List ℕ) (s : Tables × List (ℕ × ℕ)) : Prop where
  valid : s.1.Valid
  distinct : s.1.nameTree.DistinctRecords
  isSome : ∀ n, (s.1.nameTree.find? n).isSome = (t.nameTree.find? n).isSome
  tables : ∀ n, s.1.tablesAt n = if n ∈ nodes.map (nameOf ht) then (t.tablesAt n).withoutFace face else t.tablesAt n
  sorted : s.2.Pairwise fun a b => a.1 ≤ b.1
  collected : s.2.Perm ((nodes.filter fun node => ! (s.1.tablesAt (nameOf ht node)).hasTableEntries).map
    fun node => ((nameOf ht node).length, node))

/-- **The first loop.** -/
theorem exists_swept (face : FaceId) {t : Tables} (hvalid : t.Valid) (hdistinct : t.nameTree.DistinctRecords) {nodes : List ℕ}
    (hnodes : ∀ node ∈ nodes, (ht.heap node).isSome ∧ (t.nameTree.find? (nameOf ht node)).isSome)
    (hnames : (nodes.map (nameOf ht)).Nodup) :
    ∃ s, nodes.foldlM (cleanupNode face ht) (t, []) = some s ∧ Swept face ht t nodes s := by
  induction nodes using List.reverseRecOn with
  | nil => exact ⟨(t, []), rfl, hvalid, hdistinct, fun _ => rfl, fun _ => by simp, List.Pairwise.nil, .refl _⟩
  | append_singleton nodes node ih =>
    obtain ⟨hrest, hnode⟩ := List.forall_mem_append.mp hnodes
    obtain ⟨hheap, hname⟩ := List.forall_mem_singleton.mp hnode
    rw [List.map_append, List.map_singleton] at hnames
    obtain ⟨hnames', -, hfresh⟩ := List.nodup_append.mp hnames
    obtain ⟨s, hs, hswept⟩ := ih hrest hnames'
    obtain ⟨c, hc⟩ := Option.isSome_iff_exists.mp hheap
    have hnew : nameOf ht node ∉ nodes.map (nameOf ht) := fun hmem => hfresh _ hmem _ (List.mem_singleton_self _) rfl
    have hname' : (s.1.nameTree.find? (nameOf ht node)).isSome := (hswept.isSome _).trans hname
    have htables := tablesAt_cleanupNode hswept.valid hswept.distinct hname' face
    -- the nodes that the loop was at before keep their table entries
    have hbefore : ∀ x ∈ nodes, (s.1.cleanupNode face (nameOf ht node)).tablesAt (nameOf ht x) = s.1.tablesAt (nameOf ht x) := by
      intro x hx
      rw [htables, if_neg]
      intro heq
      exact hnew (heq ▸ List.mem_map_of_mem hx)
    have hfilter : nodes.filter (fun x => ! ((s.1.cleanupNode face (nameOf ht node)).tablesAt (nameOf ht x)).hasTableEntries) =
        nodes.filter fun x => ! (s.1.tablesAt (nameOf ht x)).hasTableEntries :=
      List.filter_congr fun x hx => by rw [hbefore x hx]
    have hstep : cleanupNode face ht s node = some (s.1.cleanupNode face (nameOf ht node),
        if ((s.1.cleanupNode face (nameOf ht node)).tablesAt (nameOf ht node)).hasTableEntries then s.2
        else emplace (nameOf ht node).length node s.2) := by
      rw [nameOf_eq hc, cleanupNode, hc]
      rfl
    refine ⟨_, by rw [List.foldlM_append, hs, Option.bind_eq_bind, Option.bind_some, List.foldlM_cons, hstep]; rfl, ?_, ?_, fun n => ?_, fun n => ?_, ?_, ?_⟩
    · have hchanges : Tables.Changes True s.1 (s.1.cleanupNode face (nameOf ht node)) := Tables.cleanupNode_changes face _
      exact hchanges.valid hswept.valid
    · exact Tables.cleanupNode_distinct hswept.distinct face _
    · exact (isSome_cleanupNode ..).trans (hswept.isSome n)
    · dsimp only
      rw [htables, hswept.tables, List.map_append, List.map_singleton]
      by_cases hn : nameOf ht node = n
      · subst hn
        rw [if_pos rfl, if_neg hnew, if_pos (List.mem_append_right _ (List.mem_singleton_self _))]
      · rw [if_neg hn]
        simp [Ne.symm hn]
    · dsimp only
      split_ifs
      · exact hswept.sorted
      · exact emplace_sorted _ _ hswept.sorted
    · dsimp only
      rw [List.filter_append, List.map_append, hfilter, List.filter_singleton]
      split_ifs with hentries
      · simpa [hentries] using hswept.collected
      · refine (emplace_perm _ _ _).trans ?_
        simp only [hentries, Bool.not_false]
        exact (hswept.collected.cons _).trans (List.perm_append_singleton _ _).symm

def HoldsNodes (O : HashtableOptions) (hash : Name → ℕ) (m : Name → Option ℕ) (s : HashedTables) : Prop :=
  Represents O hash s.ht fun name => if (s.tables.nameTree.find? name).isSome then m name else none

theorem eraseIfEmpty_eq (hO : O.Valid) {s : HashedTables} (h : HoldsNodes O hash m s) {name : Name} {node : ℕ}
    (hnode : m name = some node) {e : NtEntry} (he : s.tables.nameTree.find? name = some e) :
    ∃ s', s.eraseIfEmpty O node = some s' ∧ HoldsNodes O hash m s' ∧
      s'.tables.nameTree = if e.isEmpty then s.tables.nameTree.eraseNode name e.parent else s.tables.nameTree := by
  have hheld : (if (s.tables.nameTree.find? name).isSome then m name else none) = some node := by
    rw [he, Option.isSome_some, if_pos rfl, hnode]
  obtain ⟨c, hc, rfl⟩ := h.holds.map.mp hheld
  unfold eraseIfEmpty
  rw [hc, Option.bind_eq_bind, Option.bind_some, he, Option.bind_eq_bind, Option.bind_some]
  by_cases hempty : e.isEmpty = true
  · obtain ⟨ht', herase, hrep, -⟩ := h.erase hO hheld
    rw [if_pos hempty, if_pos hempty, herase]
    refine ⟨_, rfl, ?_, rfl⟩
    unfold HoldsNodes
    convert hrep using 1
    funext n
    have hsome := isSome_eraseNode s.tables.nameTree c.val.name e.parent n
    by_cases hn : n = c.val.name
    · rw [hn, Function.update_self, if_neg]
      exact fun h => ((isSome_eraseNode ..).mp h).2 rfl
    · rw [Function.update_of_ne hn]
      by_cases hsome₀ : (s.tables.nameTree.find? n).isSome
      · rw [if_pos hsome₀, if_pos (hsome.mpr ⟨hsome₀, hn⟩)]
      · rw [if_neg hsome₀, if_neg fun h => hsome₀ (hsome.mp h).1]
  · rw [if_neg hempty, if_neg hempty]
    exact ⟨s, rfl, h, rfl⟩

/-- **The second loop.** -/
theorem exists_pruned (hO : O.Valid) {nt₀ : NameTree} (h₀ : nt₀.Shaped) (nodes : List (Name × ℕ)) {done : List Name}
    {s : HashedTables} (h : HoldsNodes O hash m s) (hpruned : nt₀.Pruned done s.tables.nameTree)
    (hnodes : ∀ p ∈ nodes, m p.1 = some p.2 ∧ (nt₀.find? p.1).isSome ∧ (nt₀.tablesAt p.1).hasTableEntries = false)
    (hnodup : (nodes.map Prod.fst).Nodup) (hdone : ∀ p ∈ nodes, p.1 ∉ done)
    (hsorted : nodes.Pairwise fun p q => q.1.length ≤ p.1.length)
    (hall : ∀ n, (nt₀.find? n).isSome → (nt₀.tablesAt n).hasTableEntries = false → n ∈ done ∨ n ∈ nodes.map Prod.fst) :
    ∃ s', nodes.foldlM (fun s p => eraseIfEmpty O s p.2) s = some s' ∧ HoldsNodes O hash m s' ∧
      nt₀.Pruned ((nodes.map Prod.fst).reverse ++ done) s'.tables.nameTree := by
  induction nodes generalizing s done with
  | nil => exact ⟨s, rfl, h, hpruned⟩
  | cons p nodes ih =>
    obtain ⟨hp, hnodes⟩ := List.forall_mem_cons.mp hnodes
    obtain ⟨hpdone, hdone⟩ := List.forall_mem_cons.mp hdone
    obtain ⟨hpfirst, hsorted⟩ := List.pairwise_cons.mp hsorted
    obtain ⟨hpnew, hnodup⟩ := List.nodup_cons.mp hnodup
    obtain ⟨hnode, hsome, hbare⟩ := hp
    have hlonger : ∀ n, (nt₀.find? n).isSome → (nt₀.tablesAt n).hasTableEntries = false → p.1.length < n.length → n ∈ done := by
      intro n hn hentries hlt
      refine (hall n hn hentries).resolve_right fun hmem => ?_
      rcases List.mem_cons.mp hmem with rfl | hmem
      · exact lt_irrefl _ hlt
      · obtain ⟨q, hq, rfl⟩ := List.mem_map.mp hmem
        exact absurd (hpfirst q hq) (Nat.not_le.mpr hlt)
    obtain ⟨e, he, hstep⟩ := hpruned.step h₀ hsome hpdone hbare hlonger
    obtain ⟨s₁, heq, hheld, htree⟩ := eraseIfEmpty_eq hO h hnode he
    have hpruned₁ : nt₀.Pruned (p.1 :: done) s₁.tables.nameTree := htree ▸ hstep
    obtain ⟨s', hfold, hheld', hpruned'⟩ := ih hheld hpruned₁ hnodes hnodup
      (fun q hq hmem => by
        rcases List.mem_cons.mp hmem with heq | hmem
        · exact hpnew (heq ▸ List.mem_map_of_mem hq)
        · exact hdone q hq hmem)
      hsorted (fun n hn hentries => by
        rcases hall n hn hentries with hmem | hmem
        · exact .inl (List.mem_cons_of_mem _ hmem)
        · rcases List.mem_cons.mp hmem with rfl | hmem
          · exact .inl List.mem_cons_self
          · exact .inr hmem)
    refine ⟨s', ?_, hheld', ?_⟩
    · rw [List.foldlM_cons, heq]
      exact hfold
    · simpa using hpruned'

/-! ## The whole removal -/

/-- **The hashtable holds the nodes of the name tree**, and no others. -/
def Agrees (O : HashtableOptions) (hash : Name → ℕ) (s : HashedTables) : Prop :=
  ∃ m, Represents O hash s.ht m ∧ ∀ name, (m name).isSome = (s.tables.nameTree.find? name).isSome

/-- **The tables `t'` are the tables `t` without a face.** -/
structure FaceRemoved (face : FaceId) (t t' : Tables) : Prop where
  tables : ∀ name, t'.tablesAt name = (t.tablesAt name).withoutFace face
  noNextHop : ∀ name nextHops, (t'.tablesAt name).fibEntry = some nextHops → ∀ nh ∈ nextHops, nh.face ≠ face
  noRecord : ∀ name, ∀ e ∈ (t'.tablesAt name).pitEntries,
    (∀ r ∈ e.inRecords, r.face ≠ face) ∧ ∀ r ∈ e.outRecords, r.face ≠ face
  /-- The other next hops are those that were there. -/
  nextHops : ∀ name, (t'.tablesAt name).fibEntry.getD [] = ((t.tablesAt name).fibEntry.getD []).filter (·.face != face)
  noneIsEmpty : ∀ name e, t'.nameTree.find? name = some e → e.isEmpty = false
  /-- A node is left just if a table entry is left at it or below it. -/
  nodes : ∀ name, (t'.nameTree.find? name).isSome ↔ (t.nameTree.find? name).isSome ∧ t'.nameTree.Live name

theorem FaceRemoved.of_tables {t t' : Tables} (h : ∀ name, t'.tablesAt name = (t.tablesAt name).withoutFace face)
    (hempty : ∀ name e, t'.nameTree.find? name = some e → e.isEmpty = false)
    (hnodes : ∀ name, (t'.nameTree.find? name).isSome ↔ (t.nameTree.find? name).isSome ∧ t'.nameTree.Live name) :
    FaceRemoved face t t' := by
  refine ⟨h, fun name nextHops hfib nh hnh => ?_, fun name e he => ?_, fun name => ?_, hempty, hnodes⟩
  · rw [h, TableEntries.withoutFace] at hfib
    obtain ⟨nextHops₀, -, hfib⟩ := Option.bind_eq_some_iff.mp hfib
    split_ifs at hfib
    obtain rfl := Option.some.inj hfib
    exact bne_iff_ne.mp (List.mem_filter.mp hnh).2
  · rw [h] at he
    obtain ⟨e₀, -, rfl⟩ := List.mem_map.mp he
    exact ⟨fun r hr => bne_iff_ne.mp (List.mem_filter.mp hr).2, fun r hr => bne_iff_ne.mp (List.mem_filter.mp hr).2⟩
  · rw [h, TableEntries.withoutFace]
    cases (t.tablesAt name).fibEntry with
    | none => rfl
    | some nextHops =>
      rw [Option.bind_some, Option.getD_some]
      split_ifs with hall
      · rw [Option.getD_none]
        exact (List.filter_eq_nil_iff.mpr (by simpa using hall.2)).symm
      · rfl

theorem exists_mapM {α β : Type} {f : α → Option β} {P : β → Prop} {l : List α} (h : ∀ a ∈ l, ∃ b, f a = some b ∧ P b) :
    ∃ bs, l.mapM f = some bs ∧ ∀ b ∈ bs, P b := by
  induction l with
  | nil => exact ⟨[], rfl, fun b hb => absurd hb List.not_mem_nil⟩
  | cons a l ih =>
    obtain ⟨⟨b, hb, hP⟩, hl⟩ := List.forall_mem_cons.mp h
    obtain ⟨bs, hbs, hall⟩ := ih hl
    refine ⟨b :: bs, ?_, List.forall_mem_cons.mpr ⟨hP, hall⟩⟩
    rw [List.mapM_cons, hb, hbs]
    rfl

/-- **The assertion holds** when no node is empty. -/
theorem noneIsEmpty_eq (hO : O.Valid) {s : HashedTables} (h : Represents O hash s.ht m)
    (hm : ∀ name, (m name).isSome → (s.tables.nameTree.find? name).isSome)
    (hempty : ∀ name e, s.tables.nameTree.find? name = some e → e.isEmpty = false) : s.noneIsEmpty = some true := by
  obtain ⟨nodes, hnodes, -, hmem⟩ := h.fullEnumerate hO fun _ => true
  have hentries : ∀ node ∈ nodes, ∃ e, ((s.ht.heap node).bind fun c => s.tables.nameTree.find? c.val.name) = some e ∧
      e.isEmpty = false := by
    intro node hnode
    obtain ⟨name, hname, -⟩ := (hmem node).mp hnode
    obtain ⟨c, hc, rfl⟩ := h.holds.map.mp hname
    obtain ⟨e, he⟩ := Option.isSome_iff_exists.mp (hm c.val.name (by rw [hname]; rfl))
    exact ⟨e, by rw [hc]; exact he, hempty _ e he⟩
  obtain ⟨entries, hmap, hall⟩ := exists_mapM hentries
  unfold noneIsEmpty
  rw [hnodes, Option.bind_eq_bind, Option.bind_some, hmap, Option.bind_eq_bind, Option.bind_some, Option.some_inj,
    Bool.or_eq_true]
  exact .inr (List.all_eq_true.mpr fun e he => by rw [hall e he]; rfl)

structure Enumerates (m : Name → Option ℕ) (ht : Hashtable) (nodes : List ℕ) : Prop where
  nodup : nodes.Nodup
  node : ∀ node ∈ nodes, m (nameOf ht node) = some node
  name : ∀ {name node}, m name = some node → node ∈ nodes ∧ nameOf ht node = name

theorem exists_enumerates (hO : O.Valid) (h : Represents O hash ht m) :
    ∃ nodes, ht.fullEnumerate (fun _ => true) = some nodes ∧ Enumerates m ht nodes := by
  obtain ⟨nodes, hnodes, hnodup, hmem⟩ := h.fullEnumerate hO fun _ => true
  refine ⟨nodes, hnodes, hnodup, fun node hnode => ?_, fun {name node} hname => ?_⟩
  · obtain ⟨name, hname, -⟩ := (hmem node).mp hnode
    obtain ⟨c, hc, rfl⟩ := h.holds.map.mp hname
    rw [nameOf_eq hc, hname]
  · obtain ⟨c, hc, rfl⟩ := h.holds.map.mp hname
    exact ⟨(hmem node).mpr ⟨_, hname, rfl⟩, nameOf_eq hc⟩

theorem Enumerates.inj {nodes : List ℕ} (h : Enumerates m ht nodes) :
    ∀ x ∈ nodes, ∀ y ∈ nodes, nameOf ht x = nameOf ht y → x = y := by
  intro x hx y hy hxy
  have hx := h.node x hx
  rw [hxy, h.node y hy] at hx
  exact (Option.some.inj hx).symm

/-- **The second loop after the first.** -/
theorem exists_pruned_of_swept (hO : O.Valid) {t : Tables} {nodes : List ℕ} {s : Tables × List (ℕ × ℕ)}
    (henum : Enumerates m ht nodes) (hm : ∀ name, (m name).isSome = (t.nameTree.find? name).isSome)
    (hrep : Represents O hash ht m) (h : Swept face ht t nodes s) :
    ∃ s', s.2.reverse.foldlM (fun s item => eraseIfEmpty O s item.2) ⟨ht, s.1⟩ = some s' ∧ HoldsNodes O hash m s' ∧
      ∃ done, s.1.nameTree.Pruned done s'.tables.nameTree ∧
        ∀ n, (s.1.nameTree.find? n).isSome → (s.1.tablesAt n).hasTableEntries = false → n ∈ done := by
  have hitem : ∀ item ∈ s.2, item.2 ∈ nodes ∧ item.1 = (nameOf ht item.2).length ∧
      (s.1.tablesAt (nameOf ht item.2)).hasTableEntries = false := by
    intro item hitem
    obtain ⟨node, hnode, rfl⟩ := List.mem_map.mp (h.collected.subset hitem)
    obtain ⟨hnode, hentries⟩ := List.mem_filter.mp hnode
    exact ⟨hnode, rfl, by simpa using hentries⟩
  -- the names of the nodes that were collected
  have hperm : (s.2.map fun item => nameOf ht item.2).Perm
      ((nodes.filter fun node => ! (s.1.tablesAt (nameOf ht node)).hasTableEntries).map (nameOf ht)) := by
    refine (h.collected.map _).trans ?_
    rw [List.map_map]
    exact .refl _
  have hall : ∀ n, (s.1.nameTree.find? n).isSome → (s.1.tablesAt n).hasTableEntries = false →
      n ∈ s.2.map fun item => nameOf ht item.2 := by
    intro n hn hentries
    rw [h.isSome, ← hm] at hn
    obtain ⟨node, hname⟩ := Option.isSome_iff_exists.mp hn
    obtain ⟨hnode, rfl⟩ := henum.name hname
    refine hperm.mem_iff.mpr (List.mem_map_of_mem (List.mem_filter.mpr ⟨hnode, ?_⟩))
    rw [hentries]
    rfl
  have hnodup : (s.2.map fun item => nameOf ht item.2).Nodup :=
    hperm.nodup_iff.mpr ((henum.nodup.filter _).map_on fun x hx y hy =>
      henum.inj x (List.mem_of_mem_filter hx) y (List.mem_of_mem_filter hy))
  have hheld : HoldsNodes O hash m ⟨ht, s.1⟩ := by
    unfold HoldsNodes
    convert hrep using 1
    funext name
    dsimp only
    rw [h.isSome, ← hm]
    cases m name <;> rfl
  have hnames : (s.2.reverse.map fun item => (nameOf ht item.2, item.2)).map Prod.fst =
      (s.2.map fun item => nameOf ht item.2).reverse := by
    rw [List.map_map, ← List.map_reverse]
    rfl
  have hpruned : s.1.nameTree.Pruned [] (HashedTables.mk ht s.1).tables.nameTree :=
    ⟨h.valid.shaped, fun _ => rfl, fun n => by simp⟩
  obtain ⟨s', hfold, hheld', hpruned'⟩ := exists_pruned hO h.valid.shaped
    (s.2.reverse.map fun item => (nameOf ht item.2, item.2)) hheld hpruned
    (fun p hp => by
      obtain ⟨item, hmem, rfl⟩ := List.mem_map.mp hp
      obtain ⟨hnode, -, hentries⟩ := hitem item (List.mem_reverse.mp hmem)
      refine ⟨henum.node _ hnode, ?_, hentries⟩
      dsimp only
      rw [h.isSome, ← hm, henum.node _ hnode]
      rfl)
    (by rw [hnames]; exact List.nodup_reverse.mpr hnodup)
    (fun _ _ => List.not_mem_nil)
    (by
      rw [List.pairwise_map, List.pairwise_reverse]
      refine h.sorted.imp_of_mem fun {a b} ha hb hab => ?_
      rw [← (hitem a ha).2.1, ← (hitem b hb).2.1]
      exact hab)
    (fun n hn hentries => .inr (by rw [hnames]; exact List.mem_reverse.mpr (hall n hn hentries)))
  refine ⟨s', ?_, hheld', _, hpruned', fun n hn hentries => ?_⟩
  · rw [List.foldlM_map] at hfold
    exact hfold
  · rw [hnames, List.reverse_reverse]
    exact List.mem_append_left _ (hall n hn hentries)

/-- **Removal of a face.** In every state of the tables, with any hashtable that holds their nodes, no node is used after it
was erased and the assertion holds; the face is gone, nothing else is changed in the table entries, and the nodes that are
gone are those without table entries at them or below them. -/
theorem cleanupOnFaceRemoval_spec (hO : O.Valid) {s : HashedTables} (hreach : Tables.Reachable S registry s.tables)
    (hagrees : s.Agrees O hash) (face : FaceId) :
    ∃ s', s.cleanupOnFaceRemoval O face = some s' ∧ s'.Agrees O hash ∧ FaceRemoved face s.tables s'.tables := by
  obtain ⟨m, hrep, hm⟩ := hagrees
  obtain ⟨nodes, hnodes, henum⟩ := exists_enumerates hO hrep
  have hin : ∀ node ∈ nodes, (s.ht.heap node).isSome ∧ (s.tables.nameTree.find? (nameOf s.ht node)).isSome := by
    intro node hmem
    have hsome := henum.node node hmem
    obtain ⟨c, hc, -⟩ := hrep.holds.map.mp hsome
    exact ⟨by rw [hc]; rfl, by rw [← hm, hsome]; rfl⟩
  obtain ⟨⟨t, items⟩, hsweep, hswept⟩ := exists_swept face hreach.valid hreach.distinctRecords hin
    (henum.nodup.map_on henum.inj)
  obtain ⟨s', hfold, hheld, done, hpruned, hdone⟩ := exists_pruned_of_swept hO henum hm hrep hswept
  have hempty : ∀ name e, s'.tables.nameTree.find? name = some e → e.isEmpty = false := fun name e => hpruned.isEmpty hdone
  -- the first loop was at every node, and elsewhere there are no table entries
  have htables : ∀ n, s'.tables.tablesAt n = (s.tables.tablesAt n).withoutFace face := by
    intro n
    refine (hpruned.tables n).trans ((hswept.tables n).trans ?_)
    split_ifs with hn
    · rfl
    · have hnone : s.tables.tablesAt n = {} := by
        by_contra hne
        have hsome := isSome_of_tablesAt hne
        rw [← hm] at hsome
        obtain ⟨node, hnode⟩ := Option.isSome_iff_exists.mp hsome
        exact hn (List.mem_map.mpr ⟨node, henum.name hnode⟩)
      rw [hnone]
      rfl
  have hlive : ∀ n, s'.tables.nameTree.Live n ↔ t.nameTree.Live n := fun n => by simp only [Live, hpruned.tables]
  refine ⟨s', ?_, ⟨_, hheld, fun name => ?_⟩, .of_tables htables hempty fun name => ?_⟩
  · unfold cleanupOnFaceRemoval
    rw [hnodes, Option.bind_eq_bind, Option.bind_some, hsweep, Option.bind_eq_bind, Option.bind_some]
    dsimp only at hfold ⊢
    rw [hfold, Option.bind_eq_bind, Option.bind_some, noneIsEmpty_eq hO hheld (fun name hname => ?_) hempty]
    · rfl
    · by_contra hsome
      rw [if_neg hsome] at hname
      cases hname
  · split_ifs with hsome
    · rw [hm, hsome, ← hswept.isSome]
      exact ((hpruned.nodes name).mp hsome).1
    · exact (Bool.eq_false_iff.mpr hsome).symm
  · rw [hlive, hpruned.nodes, hswept.isSome]
    refine and_congr_right fun hname => ⟨fun hn => ?_, .inr⟩
    rcases hn with hn | hn
    · -- a node that was not collected has a table entry of its own
      cases hentries : (t.tablesAt name).hasTableEntries with
      | true => exact ⟨name, List.prefix_refl _, hentries⟩
      | false => exact absurd (hdone name ((hswept.isSome name).trans hname) hentries) hn
    · exact hn

/-- A tree of two nodes, of which the lower one has a FIB entry with one next hop. -/
def faceTables : Tables :=
  (Tables.run Tables.insertionSort Tables.freeRegistry (Tables.initial none)
    [.fibInsert Tables.nameA, .fibAddOrUpdateNextHop Tables.nameA 5 0]).getD (Tables.initial none)

theorem reachable_faceTables : Tables.Reachable Tables.insertionSort Tables.freeRegistry faceTables :=
  .step (.step (.initial none) (.fibInsert Tables.nameA) trivial rfl) (.fibAddOrUpdateNextHop Tables.nameA 5 0) trivial rfl

def smallOptions : HashtableOptions := .ofFactors 1 1 (1 / 2) 2 (1 / 10) (1 / 2)

theorem valid_smallOptions : smallOptions.Valid :=
  HashtableOptions.valid_ofFactors (by decide) (by decide) (by norm_num) _ _ _

theorem exists_agrees_faceTables : ∃ ht, Agrees smallOptions (fun _ => 0) ⟨ht, faceTables⟩ := by
  have hops : NodeMap.Valid {} [.insert Tables.nameA 0, .insert Tables.nameA 1] := trivial
  obtain ⟨ht, -, hrep⟩ := (represents_ofOptions valid_smallOptions fun _ => 0).run (M := {}) valid_smallOptions rfl hops
  refine ⟨ht, _, hrep, fun name => ?_⟩
  have hmap : (NodeMap.run {} [.insert Tables.nameA 0, .insert Tables.nameA 1]).map =
      Function.update (Function.update (fun _ => none) [] (some 0)) Tables.nameA (some 1) := rfl
  have hkeys : faceTables.nameTree.toList.map Prod.fst = [[], Tables.nameA] := by rfl
  have hsome : (faceTables.nameTree.find? name).isSome ↔ name ∈ [[], Tables.nameA] := by
    rw [← hkeys]
    constructor
    · intro h
      obtain ⟨e, he⟩ := Option.isSome_iff_exists.mp h
      exact List.mem_map_of_mem ((OrdMap.mem_toList _).mpr he)
    · intro h
      obtain ⟨p, hp, rfl⟩ := List.mem_map.mp h
      rw [(OrdMap.mem_toList _).mp hp]
      rfl
  rw [hmap, Bool.eq_iff_iff, hsome]
  by_cases hA : name = Tables.nameA
  · simp [hA]
  · by_cases hnil : name = []
    · simp [hnil, Function.update, Tables.nameA]
    · simp [hA, hnil]

theorem cleanupOnFaceRemoval_spec_nameA : ∃ ht s', HashedTables.cleanupOnFaceRemoval smallOptions ⟨ht, faceTables⟩ 5 = some s' ∧
    s'.Agrees smallOptions (fun _ => 0) ∧ FaceRemoved 5 faceTables s'.tables := by
  obtain ⟨ht, hagrees⟩ := exists_agrees_faceTables
  exact ⟨ht, cleanupOnFaceRemoval_spec valid_smallOptions reachable_faceTables hagrees 5⟩

end HashedTables

end Ns3Ndn
