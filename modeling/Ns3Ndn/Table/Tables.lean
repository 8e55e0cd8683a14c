import Ns3Ndn.Table.Enumerate

/-!
# The tables on the name tree

`NFD/daemon/table`: `fib.cpp`, `fib-entry.cpp`, `pit.cpp`, `measurements.cpp`, `strategy-choice.cpp` and
`cleanup.cpp`. The four tables share the nodes of one name tree: an entry of a table is attached to a node, and
is taken here to be what its node holds. An operation fails where an assertion of the source does, or where the
entry that it is given does not exist.

* `Tables.Valid`: the tree is a tree, PIT entries are attached where `findOrInsert` puts them, and next hops are
  sorted and have different faces;
* **`run_valid`**: every run keeps this;
* **`run_findLongestPrefixMatchPit`**: in every run, the match of a PIT entry is that of its name.
-/

namespace Ns3Ndn

open OrdLib LpmLib NameTree

/-- The tables. `nFibItems` is `Fib::m_nItems` before it wraps around, and `nextPitEntry` is the address of the
next PIT entry. -/
structure Tables where
  nameTree : NameTree
  nFibItems : ℤ := 0
  nextPitEntry : ℕ := 0

/-- `std::sort` of next hops by cost. The order of next hops of equal cost is not specified. -/
structure NextHopSort where
  sort : List NextHop → List NextHop
  perm : ∀ l, (sort l).Perm l
  sorted : ∀ l, (sort l).Pairwise fun a b => a.cost ≤ b.cost

/-- What `Strategy::create` returns: a strategy with an instance name, a null pointer, or an exception. -/
inductive CreateResult where
  | created (instanceName : Name)
  | notRegistered
  | exception
deriving DecidableEq

/-- The strategies of the forwarder: `Strategy::create`, and `Strategy::find`, which maps an instance name to
the registered strategy. -/
structure StrategyRegistry where
  create : Name → CreateResult
  find : Name → Option Name

/-- `Strategy::areSameType`. -/
def StrategyRegistry.areSameType (registry : StrategyRegistry) (a b : Name) : Bool :=
  registry.find a = registry.find b

namespace Tables

/-! ## Nodes -/

section Nodes

variable (t : Tables)

def tablesAt (name : Name) : TableEntries := t.nameTree.tablesAt name

def edit (name : Name) (f : TableEntries → TableEntries) : Tables :=
  { t with nameTree := t.nameTree.edit name f }

def lookup (name : Name) (prefixLen : ℕ) : Tables := { t with nameTree := t.nameTree.lookup name prefixLen }

def eraseIfEmpty (name : Name) (canEraseAncestors : Bool) : Tables :=
  { t with nameTree := t.nameTree.eraseIfEmpty name canEraseAncestors }

end Nodes

/-! ## FIB -/

/-- `fib::Entry::addOrUpdateNextHop`. -/
def addOrUpdateNextHop (S : NextHopSort) (nextHops : List NextHop) (face : FaceId) (cost : ℕ) :
    List NextHop × Bool :=
  if nextHops.any (·.face == face) then
    (S.sort (nextHops.replaceF fun nh => if nh.face == face then some ⟨face, cost⟩ else none), false)
  else (S.sort (nextHops ++ [⟨face, cost⟩]), true)

/-- `fib::Entry::removeNextHop`, unless there is no such next hop. -/
def removeNextHop (nextHops : List NextHop) (face : FaceId) : Option (List NextHop) :=
  if nextHops.any (·.face == face) then some (nextHops.eraseP (·.face == face)) else none

section Fib

variable (t : Tables)

/-- `Fib::insert`. -/
def fibInsert (prefixName : Name) : Option Tables :=
  if maxDepth < prefixName.length then none
  else
    let t := t.lookup prefixName prefixName.length
    if (t.tablesAt prefixName).fibEntry.isSome then some t
    else
      let t := t.edit prefixName fun te => { te with fibEntry := some [] }
      some { t with nFibItems := t.nFibItems + 1 }

/-- `Fib::erase(nte, canDeleteNte)`. -/
def fibEraseNode (nte : Name) (canDeleteNte : Bool) : Tables :=
  let t := t.edit nte fun te => { te with fibEntry := none }
  let t := if canDeleteNte then t.eraseIfEmpty nte true else t
  { t with nFibItems := t.nFibItems - 1 }

/-- `Fib::erase(prefix)`. -/
def fibErase (prefixName : Name) : Tables :=
  match t.nameTree.findExactMatch prefixName prefixName.length with
  | none => t
  | some nte => t.fibEraseNode nte true

/-- `Fib::erase(entry)`, where the entry at no node is `s_emptyEntry`. -/
def fibEraseEntry (entry : Option Name) : Option Tables :=
  match entry with
  | none => some t
  | some nte => if (t.tablesAt nte).fibEntry.isSome then some (t.fibEraseNode nte true) else none

/-- `Fib::addOrUpdateNextHop`, and whether it signals `afterNewNextHop`. -/
def fibAddOrUpdateNextHop (S : NextHopSort) (entry : Name) (face : FaceId) (cost : ℕ) :
    Option (Tables × Bool) := do
  let nextHops ← (t.tablesAt entry).fibEntry
  let (nextHops, isNew) := addOrUpdateNextHop S nextHops face cost
  some (t.edit entry fun te => { te with fibEntry := some nextHops }, isNew)

/-- `Fib::removeNextHop`. -/
def fibRemoveNextHop (entry : Name) (face : FaceId) : Option Tables := do
  let nextHops ← (t.tablesAt entry).fibEntry
  match removeNextHop nextHops face with
  | none => some t
  | some nextHops =>
    let t := t.edit entry fun te => { te with fibEntry := some nextHops }
    some (if nextHops.isEmpty then t.fibEraseNode entry false else t)

end Fib

/-! ## PIT -/

/-- The depth of the node that `Pit::findOrInsert` attaches an entry to. -/
def nteDepth (name : Name) : ℕ :=
  min (name.length - if name.getLast?.any Component.isImplicitSha256Digest then 1 else 0) maxDepth

/-- `pit::Entry::canMatch`, for names with `n` equal components. -/
def canMatch (e : NtPitEntry) (interest : Interest) (n : ℕ) : Bool :=
  e.interest.name.drop n == interest.name.drop n && e.interest.canBePrefix == interest.canBePrefix &&
    e.interest.mustBeFresh == interest.mustBeFresh

def erasePitEntry (entries : List NtPitEntry) (id : ℕ) : List NtPitEntry :=
  match entries.getLast? with
  | none => entries
  | some last => (entries.map fun e => if e.id = id then last else e).dropLast

/-- `Pit::deleteInOutRecords`. -/
def deleteInOutRecords (face : FaceId) (e : NtPitEntry) : NtPitEntry :=
  { e with
    inRecords := e.inRecords.eraseP (·.face == face)
    outRecords := e.outRecords.eraseP (·.face == face) }

section Pit

variable (t : Tables)

def pitEntry (nte : Name) (id : ℕ) : Option NtPitEntry := (t.tablesAt nte).pitEntries.find? (·.id == id)

def insertPitEntry (interest : Interest) (nte : Name) : Tables :=
  let entry : NtPitEntry := { id := t.nextPitEntry, interest := interest, nameTreeEntry := nte }
  let t := t.edit nte fun te => { te with pitEntries := te.pitEntries ++ [entry] }
  { t with nextPitEntry := t.nextPitEntry + 1 }

/-- `Pit::findOrInsert`: the entry that matches the Interest, with whether it is new. -/
def pitFindOrInsert (interest : Interest) (allowInsert : Bool) : Tables × Option ℕ × Bool :=
  let name := interest.name
  let depth := nteDepth name
  let nte := name.take depth
  if allowInsert || (t.nameTree.findExactMatch name depth).isSome then
    let t := if allowInsert then t.lookup name depth else t
    match (t.tablesAt nte).pitEntries.find? (canMatch · interest depth) with
    | some e => (t, some e.id, false)
    | none =>
      if allowInsert then (t.insertPitEntry interest nte, some t.nextPitEntry, true) else (t, none, true)
  else (t, none, true)

/-- `Pit::erase`. -/
def pitErase (nte : Name) (id : ℕ) (canDeleteNte : Bool) : Option Tables := do
  let _ ← t.pitEntry nte id
  let t := t.edit nte fun te => { te with pitEntries := erasePitEntry te.pitEntries id }
  some (if canDeleteNte then t.eraseIfEmpty nte true else t)

/-- What the pipelines and strategies do to an entry: they insert, delete and clear records, and place
StrategyInfo on the entry and its records. -/
def pitUpdate (nte : Name) (id : ℕ) (inRecords outRecords : List NtRecord) (info : StrategyInfo) :
    Option Tables := do
  let _ ← t.pitEntry nte id
  some (t.edit nte fun te =>
    { te with
      pitEntries := te.pitEntries.map fun e =>
        if e.id = id then { e with inRecords := inRecords, outRecords := outRecords, info := info } else e })

end Pit

/-! ## Measurements -/

section Measurements

variable (t : Tables)

/-- `Measurements::get(nte)`. -/
def measurementsGetNode (nte : Name) : Tables :=
  t.edit nte fun te => { te with measurementsEntry := some (te.measurementsEntry.getD []) }

/-- `Measurements::get(name)`. -/
def measurementsGet (name : Name) : Tables :=
  let depth := min name.length maxDepth
  (t.lookup name depth).measurementsGetNode (name.take depth)

/-- `Measurements::get(fibEntry)`, where the entry at no node is `s_emptyEntry`. -/
def measurementsGetFib (entry : Option Name) : Option Tables :=
  match entry with
  | none => some ((t.lookup [] 0).measurementsGetNode [])
  | some nte => if (t.tablesAt nte).fibEntry.isSome then some (t.measurementsGetNode nte) else none

/-- `Measurements::get(pitEntry)`: there may be no node yet at a name with an implicit digest. -/
def measurementsGetPit (nte : Name) (id : ℕ) : Option Tables := do
  let e ← t.pitEntry nte id
  let name := e.interest.name
  if name.getLast?.any Component.isImplicitSha256Digest && decide (name.length ≤ maxDepth) then
    some ((t.lookup name name.length).measurementsGetNode name)
  else some (t.measurementsGetNode nte)

/-- `Measurements::getParent`. -/
def measurementsGetParent (child : Name) : Option Tables := do
  let _ ← (t.tablesAt child).measurementsEntry
  if child = [] then some t else some (t.measurementsGetNode child.dropLast)

/-- `Measurements::cleanup`. -/
def measurementsCleanup (entry : Name) : Option Tables := do
  let _ ← (t.tablesAt entry).measurementsEntry
  some ((t.edit entry fun te => { te with measurementsEntry := none }).eraseIfEmpty entry true)

def measurementsUpdate (entry : Name) (info : StrategyInfo) : Option Tables := do
  let _ ← (t.tablesAt entry).measurementsEntry
  some (t.edit entry fun te => { te with measurementsEntry := some info })

end Measurements

/-! ## Strategy choice -/

def clearPitEntry (e : NtPitEntry) : NtPitEntry :=
  { e with
    info := []
    inRecords := e.inRecords.map fun r => { r with info := [] }
    outRecords := e.outRecords.map fun r => { r with info := [] } }

def clearStrategyInfo (te : TableEntries) : TableEntries :=
  { te with
    pitEntries := te.pitEntries.map clearPitEntry
    measurementsEntry := te.measurementsEntry.map fun _ => [] }

/-- The nodes that `changeStrategy` looks at: the subtree of the node that changes, without the subtrees of
other choices. -/
def changesStrategy (prefixName : Name) : EntrySubTreeSelector := fun name e =>
  if name = prefixName then (true, true)
  else if e.strategyChoiceEntry.isSome then (false, false)
  else (true, true)

inductive InsertResult where
  | ok
  | notRegistered
  | exception
  | depthExceeded
deriving DecidableEq

section StrategyChoice

variable (t : Tables) (registry : StrategyRegistry)

/-- `nteHasStrategyChoiceEntry`. -/
def nteHasStrategyChoiceEntry : EntrySelector := fun _ e => e.strategyChoiceEntry.isSome

/-- `findEffectiveStrategy(prefix)`. -/
def findEffectiveStrategy (name : Name) : Option Name := do
  let nte ← t.nameTree.findLongestPrefixMatch nteHasStrategyChoiceEntry name
  (t.tablesAt nte).strategyChoiceEntry

/-- `findEffectiveStrategy(pitEntry)`. -/
def findEffectiveStrategyPit (e : NtPitEntry) : Option Name := do
  let nte ← t.nameTree.findLongestPrefixMatchPit nteHasStrategyChoiceEntry e
  (t.tablesAt nte).strategyChoiceEntry

def findEffectiveStrategyMeasurements (nte : Name) : Option Name := do
  let nte ← t.nameTree.findLongestPrefixMatchEntry nteHasStrategyChoiceEntry nte
  (t.tablesAt nte).strategyChoiceEntry

def changeStrategy (prefixName oldStrategy newStrategy : Name) : Option Tables :=
  if registry.areSameType oldStrategy newStrategy then some t
  else do
    let ntChanged ← t.nameTree.partialEnumerate (changesStrategy prefixName) prefixName
    some (ntChanged.foldl (fun t nte => t.edit nte clearStrategyInfo) t)

/-- `setStrategy` and `setStrategyChoiceEntry`. -/
def setStrategy (prefixName : Name) (strategy : Option Name) : Tables :=
  t.edit prefixName fun te => { te with strategyChoiceEntry := strategy }

/-- `StrategyChoice::insert`. A new entry has no strategy until `setStrategy`, its instance name is empty. -/
def strategyInsert (prefixName strategyName : Name) : Option (Tables × InsertResult) :=
  if maxDepth < prefixName.length then some (t, .depthExceeded)
  else
    match registry.create strategyName with
    | .exception => some (t, .exception)
    | .notRegistered => some (t, .notRegistered)
    | .created strategy =>
      let t := t.lookup prefixName prefixName.length
      match (t.tablesAt prefixName).strategyChoiceEntry with
      | some oldStrategy =>
        if oldStrategy = strategy then some (t, .ok)
        else do
          let t ← t.changeStrategy registry prefixName oldStrategy strategy
          some (t.setStrategy prefixName (some strategy), .ok)
      | none => do
        let oldStrategy ← t.findEffectiveStrategy prefixName
        let t := t.setStrategy prefixName (some [])
        let t ← t.changeStrategy registry prefixName oldStrategy strategy
        some (t.setStrategy prefixName (some strategy), .ok)

/-- `StrategyChoice::erase`. -/
def strategyErase (prefixName : Name) : Option Tables :=
  if prefixName = [] then none
  else
    match t.nameTree.findExactMatch prefixName prefixName.length with
    | none => some t
    | some nte =>
      match (t.tablesAt nte).strategyChoiceEntry with
      | none => some t
      | some oldStrategy => do
        let parentStrategy ← t.findEffectiveStrategy prefixName.dropLast
        let t ← t.changeStrategy registry prefixName oldStrategy parentStrategy
        some ((t.setStrategy nte none).eraseIfEmpty nte true)

end StrategyChoice

section Cleanup

variable (face : FaceId)

def cleanupNode (t : Tables) (nte : Name) : Tables :=
  let t := (t.fibRemoveNextHop nte face).getD t
  t.edit nte fun te => { te with pitEntries := te.pitEntries.map (deleteInOutRecords face) }

/-- The first loop, with the nodes that may be empty after it. -/
def cleanupNodes (t : Tables) (ntes : List Name) : Tables × List Name :=
  ntes.foldl (fun (t, maybeEmptyNtes) nte =>
    let t := t.cleanupNode face nte
    (t, if (t.tablesAt nte).hasTableEntries then maybeEmptyNtes else maybeEmptyNtes ++ [nte])) (t, [])

/-- `cleanupOnFaceRemoval`: longer names are erased first. -/
def cleanupOnFaceRemoval (t : Tables) : Tables :=
  let (t, maybeEmptyNtes) := t.cleanupNodes face (t.nameTree.toList.map Prod.fst)
  (maybeEmptyNtes.insertionSort fun a b => a.length ≤ b.length).reverse.foldl
    (fun t nte => t.eraseIfEmpty nte false) t

end Cleanup

/-! ## Runs -/

inductive TableOp where
  | lookup (name : Name) (prefixLen : ℕ)
  | eraseIfEmpty (name : Name) (canEraseAncestors : Bool)
  | fibInsert (prefixName : Name)
  | fibErase (prefixName : Name)
  | fibEraseEntry (entry : Option Name)
  | fibAddOrUpdateNextHop (entry : Name) (face : FaceId) (cost : ℕ)
  | fibRemoveNextHop (entry : Name) (face : FaceId)
  | cleanupOnFaceRemoval (face : FaceId)
  | pitFindOrInsert (interest : Interest) (allowInsert : Bool)
  | pitErase (nte : Name) (id : ℕ) (canDeleteNte : Bool)
  | pitUpdate (nte : Name) (id : ℕ) (inRecords outRecords : List NtRecord) (info : StrategyInfo)
  | measurementsGet (name : Name)
  | measurementsGetFib (entry : Option Name)
  | measurementsGetPit (nte : Name) (id : ℕ)
  | measurementsGetParent (child : Name)
  | measurementsCleanup (entry : Name)
  | measurementsUpdate (entry : Name) (info : StrategyInfo)
  | strategyInsert (prefixName strategyName : Name)
  | strategyErase (prefixName : Name)

/-- The tables before any operation: an empty tree, or the tree of a forwarder, whose constructor has called
`setDefaultStrategy`. -/
def initial : (defaultStrategy : Option Name) → Tables
  | none => { nameTree := .empty }
  | some strategy => (Tables.lookup { nameTree := .empty } [] 0).setStrategy [] (some strategy)

section Run

variable (S : NextHopSort) (registry : StrategyRegistry)

def step (t : Tables) : TableOp → Option Tables
  | .lookup name prefixLen =>
    if prefixLen ≤ name.length ∧ prefixLen ≤ maxDepth then some (t.lookup name prefixLen) else none
  | .eraseIfEmpty name canEraseAncestors => do
    let _ ← t.nameTree.find? name
    some (t.eraseIfEmpty name canEraseAncestors)
  | .fibInsert prefixName => t.fibInsert prefixName
  | .fibErase prefixName => some (t.fibErase prefixName)
  | .fibEraseEntry entry => t.fibEraseEntry entry
  | .fibAddOrUpdateNextHop entry face cost => (t.fibAddOrUpdateNextHop S entry face cost).map Prod.fst
  | .fibRemoveNextHop entry face => t.fibRemoveNextHop entry face
  | .cleanupOnFaceRemoval face => some (t.cleanupOnFaceRemoval face)
  | .pitFindOrInsert interest allowInsert => some (t.pitFindOrInsert interest allowInsert).1
  | .pitErase nte id canDeleteNte => t.pitErase nte id canDeleteNte
  | .pitUpdate nte id inRecords outRecords info => t.pitUpdate nte id inRecords outRecords info
  | .measurementsGet name => some (t.measurementsGet name)
  | .measurementsGetFib entry => t.measurementsGetFib entry
  | .measurementsGetPit nte id => t.measurementsGetPit nte id
  | .measurementsGetParent child => t.measurementsGetParent child
  | .measurementsCleanup entry => t.measurementsCleanup entry
  | .measurementsUpdate entry info => t.measurementsUpdate entry info
  | .strategyInsert prefixName strategyName => (t.strategyInsert registry prefixName strategyName).map Prod.fst
  | .strategyErase prefixName => t.strategyErase registry prefixName

def run (t : Tables) (ops : List TableOp) : Option Tables := ops.foldlM (step S registry) t

end Run

/-! ## What an operation does -/

def Ordered (nextHops : List NextHop) : Prop :=
  (nextHops.map NextHop.face).Nodup ∧ nextHops.Pairwise fun a b => a.cost ≤ b.cost

/-- A change of a list of PIT entries that makes no new ones: it erases entries and edits their records. -/
def KeepsPit (g : List NtPitEntry → List NtPitEntry) : Prop :=
  ∀ l, (l.map NtPitEntry.id).Nodup → ((g l).map NtPitEntry.id).Nodup ∧
    ∀ e ∈ g l, ∃ e' ∈ l, e.id = e'.id ∧ e.interest = e'.interest ∧ e.nameTreeEntry = e'.nameTreeEntry

/-- **A single change of the tables.** When `counted` holds, the FIB counts an entry that it erases. -/
inductive Change (counted : Prop) (t : Tables) : Tables → Prop
  | lookup {name : Name} {prefixLen : ℕ} (hlen : prefixLen ≤ name.length) (hdepth : prefixLen ≤ maxDepth) :
    Change counted t (t.lookup name prefixLen)
  | eraseIfEmpty (name : Name) (canEraseAncestors : Bool) :
    Change counted t (t.eraseIfEmpty name canEraseAncestors)
  | addFib {name : Name} (hname : (t.nameTree.find? name).isSome) (hnone : (t.tablesAt name).fibEntry = none) :
    Change counted t { t.edit name fun te => { te with fibEntry := some [] } with nFibItems := t.nFibItems + 1 }
  | setFib {name : Name} {nextHops nextHops' : List NextHop}
    (hsome : (t.tablesAt name).fibEntry = some nextHops) (hordered : Ordered nextHops → Ordered nextHops') :
    Change counted t (t.edit name fun te => { te with fibEntry := some nextHops' })
  | eraseFib {name : Name} (hname : (t.nameTree.find? name).isSome)
    (hsome : counted → (t.tablesAt name).fibEntry.isSome) :
    Change counted t { t.edit name fun te => { te with fibEntry := none } with nFibItems := t.nFibItems - 1 }
  | insertPit (interest : Interest)
    (hname : (t.nameTree.find? (interest.name.take (nteDepth interest.name))).isSome) :
    Change counted t (t.insertPitEntry interest (interest.name.take (nteDepth interest.name)))
  | editHosts (name : Name) {g : List NtPitEntry → List NtPitEntry} (hg : KeepsPit g)
    (g' : Option StrategyInfo → Option StrategyInfo) :
    Change counted t (t.edit name fun te =>
      { te with pitEntries := g te.pitEntries, measurementsEntry := g' te.measurementsEntry })
  | setStrategy {name : Name} {strategy : Option Name} (hroot : name = [] → strategy.isSome) :
    Change counted t (t.setStrategy name strategy)

abbrev Changes (counted : Prop) : Tables → Tables → Prop := Relation.ReflTransGen (Change counted)

/-- The FIB erases no entry that it has not counted: `Fib::erase(prefix)` does not look whether the node has a
FIB entry. -/
def Counted (t : Tables) : TableOp → Prop
  | .fibErase prefixName =>
    (t.nameTree.findExactMatch prefixName prefixName.length).isSome → (t.tablesAt prefixName).fibEntry.isSome
  | _ => True

section Changes

variable {counted : Prop} {t t' : Tables}

theorem isSome_of_fibEntry {name : Name} (h : (t.tablesAt name).fibEntry.isSome) :
    (t.nameTree.find? name).isSome := by
  refine isSome_of_tablesAt fun hempty => ?_
  rw [tablesAt, hempty] at h
  cases h

theorem isSome_lookup_self (t : Tables) (name : Name) (prefixLen : ℕ) :
    ((t.lookup name prefixLen).nameTree.find? (name.take prefixLen)).isSome :=
  (isSome_lookup name prefixLen _).mpr (Or.inr ⟨prefixLen, le_rfl, rfl⟩)

theorem keepsPit_map {f : NtPitEntry → NtPitEntry}
    (hf : ∀ e, (f e).id = e.id ∧ (f e).interest = e.interest ∧ (f e).nameTreeEntry = e.nameTreeEntry) :
    KeepsPit (List.map f) := by
  intro l hl
  constructor
  · rw [List.map_map, (funext fun e => (hf e).1 : NtPitEntry.id ∘ f = NtPitEntry.id)]
    exact hl
  · intro e he
    obtain ⟨e', he', rfl⟩ := List.mem_map.mp he
    exact ⟨e', he', hf e'⟩

theorem keepsPit_id : KeepsPit id := fun _ hl => ⟨hl, fun e he => ⟨e, he, rfl, rfl, rfl⟩⟩

theorem keepsPit_erasePitEntry (id : ℕ) : KeepsPit (erasePitEntry · id) := by
  intro l hl
  rcases List.eq_nil_or_concat l with rfl | ⟨l, last, rfl⟩
  · exact ⟨hl, fun e he => ⟨e, he, rfl, rfl, rfl⟩⟩
  · rw [List.concat_eq_append] at hl ⊢
    have herase : erasePitEntry (l ++ [last]) id = l.map fun e => if e.id = id then last else e := by
      rw [erasePitEntry, List.getLast?_concat]
      dsimp only
      rw [List.map_append, List.map_singleton, List.dropLast_concat]
    obtain ⟨hids, -, hlast⟩ := List.nodup_append.mp (List.map_append ▸ hl)
    have hinj : ∀ x ∈ l, ∀ y ∈ l, x.id = y.id → x = y := fun x hx y hy => List.inj_on_of_nodup_map hids hx hy
    have hne : ∀ x ∈ l, x.id ≠ last.id := fun x hx =>
      hlast _ (List.mem_map_of_mem hx) _ (List.mem_singleton_self _)
    dsimp only
    rw [herase, List.map_map]
    refine ⟨(List.Nodup.of_map _ hids).map_on fun x hx y hy hxy => ?_, fun e he => ?_⟩
    · dsimp only [Function.comp_apply] at hxy
      split_ifs at hxy with hxid hyid hyid
      · exact hinj x hx y hy (hxid.trans hyid.symm)
      · exact absurd hxy.symm (hne y hy)
      · exact absurd hxy (hne x hx)
      · exact hinj x hx y hy hxy
    · obtain ⟨e', he', rfl⟩ := List.mem_map.mp he
      split_ifs
      · exact ⟨last, List.mem_append_right _ (List.mem_singleton_self _), rfl, rfl, rfl⟩
      · exact ⟨e', List.mem_append_left _ he', rfl, rfl, rfl⟩

theorem changes_pit (name : Name) {g : List NtPitEntry → List NtPitEntry} (hg : KeepsPit g) :
    Changes counted t (t.edit name fun te => { te with pitEntries := g te.pitEntries }) :=
  .single (.editHosts name hg id)

theorem changes_measurements (name : Name) (g : Option StrategyInfo → Option StrategyInfo) :
    Changes counted t (t.edit name fun te => { te with measurementsEntry := g te.measurementsEntry }) :=
  .single (.editHosts name keepsPit_id g)

theorem changes_eraseIf (name : Name) (b : Bool) (h : Changes counted t t') :
    Changes counted t (if b then t'.eraseIfEmpty name true else t') := by
  split_ifs
  · exact h.tail (.eraseIfEmpty name true)
  · exact h

variable {prefixName : Name}

theorem fibInsert_changes (h : t.fibInsert prefixName = some t') :
    Changes counted t t' := by
  unfold fibInsert at h
  dsimp only at h
  split_ifs at h with hdepth hsome
  · cases h
    exact .single (.lookup le_rfl (Nat.not_lt.mp hdepth))
  · cases h
    refine .tail (.single (.lookup le_rfl (Nat.not_lt.mp hdepth))) (.addFib ?_ ?_)
    · simpa using t.isSome_lookup_self prefixName prefixName.length
    · exact Option.not_isSome_iff_eq_none.mp hsome

theorem fibEraseNode_changes {nte : Name} (canDeleteNte : Bool) (hname : (t.nameTree.find? nte).isSome)
    (hsome : counted → (t.tablesAt nte).fibEntry.isSome) :
    Changes counted t (t.fibEraseNode nte canDeleteNte) := by
  have herase : Changes counted t
      { t.edit nte fun te => { te with fibEntry := none } with nFibItems := t.nFibItems - 1 } :=
    .single (.eraseFib hname hsome)
  cases canDeleteNte with
  | false => exact herase
  | true => exact herase.tail (.eraseIfEmpty nte true)

theorem findExactMatch_eq_some {nt : NameTree} {name m : Name} (h : nt.findExactMatch name name.length = some m) :
    m = name ∧ (nt.find? name).isSome := by
  simp only [findExactMatch, min_self, List.take_length] at h
  split_ifs at h with hdepth hsome
  exact ⟨(Option.some.inj h).symm, hsome⟩

theorem fibErase_changes :
    Changes (t.Counted (.fibErase prefixName)) t (t.fibErase prefixName) := by
  unfold fibErase
  cases hfind : t.nameTree.findExactMatch prefixName prefixName.length with
  | none => exact .refl
  | some nte =>
    obtain ⟨rfl, hname⟩ := findExactMatch_eq_some hfind
    refine fibEraseNode_changes true hname fun hcounted => hcounted ?_
    rw [hfind]
    rfl

theorem fibEraseEntry_changes {entry : Option Name} (h : t.fibEraseEntry entry = some t') :
    Changes counted t t' := by
  unfold fibEraseEntry at h
  cases entry with
  | none =>
    cases h
    exact .refl
  | some nte =>
    dsimp only at h
    split_ifs at h with hsome
    cases h
    exact fibEraseNode_changes true (isSome_of_fibEntry hsome) fun _ => hsome

/-- **Adding a next hop** keeps the faces different, and sorts them. -/
theorem ordered_addOrUpdateNextHop (S : NextHopSort) {nextHops : List NextHop} (face : FaceId) (cost : ℕ)
    (h : Ordered nextHops) : Ordered (addOrUpdateNextHop S nextHops face cost).1 := by
  unfold addOrUpdateNextHop
  split_ifs with hany
  · refine ⟨?_, S.sorted _⟩
    rw [((S.perm _).map _).nodup_iff, map_replaceF]
    · exact h.1
    · intro nh nh' hnh
      split_ifs at hnh with hface
      rw [← Option.some.inj hnh, eq_of_beq hface]
  · refine ⟨?_, S.sorted _⟩
    rw [((S.perm _).map _).nodup_iff, List.map_append, List.map_singleton]
    refine h.1.append (List.nodup_singleton _) (List.disjoint_singleton.mpr fun hmem => hany ?_)
    obtain ⟨nh, hnh, hface⟩ := List.mem_map.mp hmem
    exact List.any_eq_true.mpr ⟨nh, hnh, beq_iff_eq.mpr hface⟩

theorem ordered_removeNextHop {nextHops nextHops' : List NextHop} {face : FaceId}
    (hremove : removeNextHop nextHops face = some nextHops') (h : Ordered nextHops) : Ordered nextHops' := by
  unfold removeNextHop at hremove
  split_ifs at hremove
  cases hremove
  have hsub : (nextHops.eraseP (·.face == face)).Sublist nextHops := List.eraseP_sublist
  exact ⟨h.1.sublist (hsub.map _), h.2.sublist hsub⟩

theorem fibAddOrUpdateNextHop_changes {S : NextHopSort} {entry : Name} {face : FaceId} {cost : ℕ}
    {isNew : Bool} (h : t.fibAddOrUpdateNextHop S entry face cost = some (t', isNew)) :
    Changes counted t t' := by
  unfold fibAddOrUpdateNextHop at h
  obtain ⟨nextHops, hsome, h⟩ := Option.bind_eq_some_iff.mp h
  cases h
  exact .single (.setFib hsome (ordered_addOrUpdateNextHop S face cost))

theorem tablesAt_edit_self {name : Name} (hname : (t.nameTree.find? name).isSome)
    (f : TableEntries → TableEntries) : (t.edit name f).tablesAt name = f (t.tablesAt name) := by
  rw [tablesAt, edit, tablesAt_edit hname, if_pos rfl]
  rfl

theorem isSome_edit (t : Tables) (name : Name) (f : TableEntries → TableEntries) (m : Name) :
    ((t.edit name f).nameTree.find? m).isSome = (t.nameTree.find? m).isSome := by
  rw [edit, NameTree.edit, OrdMap.find?_modify]
  split_ifs <;> simp

theorem fibRemoveNextHop_changes {entry : Name} {face : FaceId} (h : t.fibRemoveNextHop entry face = some t') :
    Changes counted t t' := by
  unfold fibRemoveNextHop at h
  obtain ⟨nextHops, hsome, h⟩ := Option.bind_eq_some_iff.mp h
  cases hremove : removeNextHop nextHops face with
  | none =>
    rw [hremove] at h
    cases h
    exact .refl
  | some nextHops' =>
    have hname : (t.nameTree.find? entry).isSome := isSome_of_fibEntry (hsome ▸ rfl)
    have hset : Changes counted t (t.edit entry fun te => { te with fibEntry := some nextHops' }) :=
      .single (.setFib hsome (ordered_removeNextHop hremove))
    rw [hremove] at h
    dsimp only at h
    split_ifs at h
    · cases h
      refine hset.trans (fibEraseNode_changes false ((t.isSome_edit ..).trans hname) fun _ => ?_)
      rw [tablesAt_edit_self hname]
      rfl
    · cases h
      exact hset

theorem cleanupNode_changes (face : FaceId) (nte : Name) : Changes counted t (t.cleanupNode face nte) := by
  have hfib : Changes counted t ((t.fibRemoveNextHop nte face).getD t) := by
    cases h : t.fibRemoveNextHop nte face with
    | none => exact .refl
    | some t' => exact fibRemoveNextHop_changes h
  exact hfib.trans (changes_pit nte (keepsPit_map fun _ => ⟨rfl, rfl, rfl⟩))

theorem changes_foldl {α : Type} {f : Tables → α → Tables} (hf : ∀ t a, Changes counted t (f t a))
    (l : List α) (t : Tables) : Changes counted t (l.foldl f t) := by
  induction l generalizing t with
  | nil => exact .refl
  | cons a l ih => exact (hf t a).trans (ih _)

theorem cleanupNodes_changes (face : FaceId) (ntes : List Name) (t : Tables) (maybeEmptyNtes : List Name) :
    Changes counted t (ntes.foldl (fun (t, maybeEmptyNtes) nte =>
      let t := t.cleanupNode face nte
      (t, if (t.tablesAt nte).hasTableEntries then maybeEmptyNtes else maybeEmptyNtes ++ [nte]))
      (t, maybeEmptyNtes)).1 := by
  induction ntes generalizing t maybeEmptyNtes with
  | nil => exact .refl
  | cons nte ntes ih => exact (cleanupNode_changes face nte).trans (ih _ _)

theorem cleanupOnFaceRemoval_changes (face : FaceId) : Changes counted t (t.cleanupOnFaceRemoval face) :=
  (cleanupNodes_changes face _ t []).trans (changes_foldl (fun _ nte => .single (.eraseIfEmpty nte false)) _ _)

theorem nteDepth_le_length (name : Name) : nteDepth name ≤ name.length :=
  (min_le_left _ _).trans (Nat.sub_le _ _)

theorem pitFindOrInsert_changes (interest : Interest) (allowInsert : Bool) :
    Changes counted t (t.pitFindOrInsert interest allowInsert).1 := by
  unfold pitFindOrInsert
  dsimp only
  cases allowInsert with
  | true =>
    have hlookup : Changes counted t (t.lookup interest.name (nteDepth interest.name)) :=
      .single (.lookup (nteDepth_le_length _) (min_le_right _ _))
    simp only [Bool.true_or, if_true]
    split
    · exact hlookup
    · exact hlookup.tail (.insertPit interest (t.isSome_lookup_self ..))
  | false =>
    simp only [Bool.false_or, Bool.false_eq_true, if_false]
    split
    · split
      · exact .refl
      · exact .refl
    · exact .refl

theorem pitErase_changes {nte : Name} {id : ℕ} {canDeleteNte : Bool}
    (h : t.pitErase nte id canDeleteNte = some t') : Changes counted t t' := by
  obtain ⟨_, -, h⟩ := Option.bind_eq_some_iff.mp h
  cases h
  exact changes_eraseIf nte canDeleteNte (changes_pit nte (keepsPit_erasePitEntry id))

theorem pitUpdate_changes {nte : Name} {id : ℕ} {inRecords outRecords : List NtRecord} {info : StrategyInfo}
    (h : t.pitUpdate nte id inRecords outRecords info = some t') : Changes counted t t' := by
  obtain ⟨_, -, h⟩ := Option.bind_eq_some_iff.mp h
  cases h
  refine changes_pit nte (keepsPit_map fun e => ?_)
  split_ifs
  · exact ⟨rfl, rfl, rfl⟩
  · exact ⟨rfl, rfl, rfl⟩

theorem measurementsGetNode_changes (nte : Name) : Changes counted t (t.measurementsGetNode nte) :=
  changes_measurements nte fun m => some (m.getD [])

theorem measurementsGet_changes (name : Name) : Changes counted t (t.measurementsGet name) :=
  .trans (.single (.lookup (min_le_left _ _) (min_le_right _ _))) (measurementsGetNode_changes _)

theorem measurementsGetFib_changes {entry : Option Name} (h : t.measurementsGetFib entry = some t') :
    Changes counted t t' := by
  cases entry with
  | none =>
    cases h
    exact .trans (.single (.lookup le_rfl (Nat.zero_le _))) (measurementsGetNode_changes _)
  | some nte =>
    simp only [measurementsGetFib] at h
    split_ifs at h
    cases h
    exact measurementsGetNode_changes nte

theorem measurementsGetPit_changes {nte : Name} {id : ℕ} (h : t.measurementsGetPit nte id = some t') :
    Changes counted t t' := by
  obtain ⟨e, -, h⟩ := Option.bind_eq_some_iff.mp h
  dsimp only at h
  split_ifs at h with hdigest
  · cases h
    rw [Bool.and_eq_true, decide_eq_true_iff] at hdigest
    exact .trans (.single (.lookup le_rfl hdigest.2)) (measurementsGetNode_changes _)
  · cases h
    exact measurementsGetNode_changes nte

theorem measurementsGetParent_changes {child : Name} (h : t.measurementsGetParent child = some t') :
    Changes counted t t' := by
  obtain ⟨_, -, h⟩ := Option.bind_eq_some_iff.mp h
  split_ifs at h
  · cases h
    exact .refl
  · cases h
    exact measurementsGetNode_changes _

theorem measurementsCleanup_changes {entry : Name} (h : t.measurementsCleanup entry = some t') :
    Changes counted t t' := by
  obtain ⟨_, -, h⟩ := Option.bind_eq_some_iff.mp h
  cases h
  exact (changes_measurements entry fun _ => none).tail (.eraseIfEmpty entry true)

theorem measurementsUpdate_changes {entry : Name} {info : StrategyInfo}
    (h : t.measurementsUpdate entry info = some t') : Changes counted t t' := by
  obtain ⟨_, -, h⟩ := Option.bind_eq_some_iff.mp h
  cases h
  exact changes_measurements entry fun _ => some info

variable {registry : StrategyRegistry}

theorem clearStrategyInfo_changes (t : Tables) (nte : Name) :
    Changes counted t (t.edit nte clearStrategyInfo) :=
  .single (.editHosts nte (keepsPit_map (f := clearPitEntry) fun _ => ⟨rfl, rfl, rfl⟩) (Option.map fun _ => []))

theorem changeStrategy_changes {prefixName oldStrategy newStrategy : Name}
    (h : t.changeStrategy registry prefixName oldStrategy newStrategy = some t') : Changes counted t t' := by
  unfold changeStrategy at h
  split_ifs at h
  · cases h
    exact .refl
  · obtain ⟨ntChanged, -, h⟩ := Option.bind_eq_some_iff.mp h
    cases h
    exact changes_foldl clearStrategyInfo_changes ntChanged t

theorem strategyInsert_changes {prefixName strategyName : Name} {result : InsertResult}
    (h : t.strategyInsert registry prefixName strategyName = some (t', result)) : Changes counted t t' := by
  unfold strategyInsert at h
  split_ifs at h with hdepth
  · cases h
    exact .refl
  · have hlookup : Changes counted t (t.lookup prefixName prefixName.length) :=
      .single (.lookup le_rfl (Nat.not_lt.mp hdepth))
    split at h
    · cases h
      exact .refl
    · cases h
      exact .refl
    · dsimp only at h
      split at h
      · split_ifs at h
        · cases h
          exact hlookup
        · obtain ⟨t₁, hchange, h⟩ := Option.bind_eq_some_iff.mp h
          cases h
          exact (hlookup.trans (changeStrategy_changes hchange)).tail (.setStrategy fun _ => rfl)
      · obtain ⟨oldStrategy, -, h⟩ := Option.bind_eq_some_iff.mp h
        obtain ⟨t₁, hchange, h⟩ := Option.bind_eq_some_iff.mp h
        cases h
        have hset : Changes counted t ((t.lookup prefixName prefixName.length).setStrategy prefixName (some [])) :=
          hlookup.tail (.setStrategy fun _ => rfl)
        exact (hset.trans (changeStrategy_changes hchange)).tail (.setStrategy fun _ => rfl)

theorem strategyErase_changes (h : t.strategyErase registry prefixName = some t') :
    Changes counted t t' := by
  unfold strategyErase at h
  split_ifs at h with hroot
  split at h
  · cases h
    exact .refl
  case h_2 nte hnte =>
    obtain ⟨rfl, -⟩ := findExactMatch_eq_some hnte
    split at h
    · cases h
      exact .refl
    · obtain ⟨parentStrategy, -, h⟩ := Option.bind_eq_some_iff.mp h
      obtain ⟨t₁, hchange, h⟩ := Option.bind_eq_some_iff.mp h
      cases h
      refine .tail ((changeStrategy_changes hchange).tail (.setStrategy ?_)) (.eraseIfEmpty nte true)
      exact fun hnil => absurd hnil hroot

/-- **What an operation does**: changes, in which the FIB counts what it erases unless the operation is a
miscount. -/
theorem step_changes {S : NextHopSort} {op : TableOp} (h : step S registry t op = some t') :
    Changes (t.Counted op) t t' := by
  cases op with
  | lookup name prefixLen =>
    simp only [step] at h
    split_ifs at h with hlen
    cases h
    exact .single (.lookup hlen.1 hlen.2)
  | eraseIfEmpty name canEraseAncestors =>
    obtain ⟨_, -, h⟩ := Option.bind_eq_some_iff.mp h
    cases h
    exact .single (.eraseIfEmpty name canEraseAncestors)
  | fibInsert => exact fibInsert_changes h
  | fibErase prefixName =>
    cases h
    exact fibErase_changes
  | fibEraseEntry => exact fibEraseEntry_changes h
  | fibAddOrUpdateNextHop =>
    obtain ⟨r, hr, rfl⟩ := Option.map_eq_some_iff.mp h
    exact fibAddOrUpdateNextHop_changes hr
  | fibRemoveNextHop => exact fibRemoveNextHop_changes h
  | cleanupOnFaceRemoval face =>
    cases h
    exact cleanupOnFaceRemoval_changes face
  | pitFindOrInsert interest allowInsert =>
    cases h
    exact pitFindOrInsert_changes interest allowInsert
  | pitErase => exact pitErase_changes h
  | pitUpdate => exact pitUpdate_changes h
  | measurementsGet name =>
    cases h
    exact measurementsGet_changes name
  | measurementsGetFib => exact measurementsGetFib_changes h
  | measurementsGetPit => exact measurementsGetPit_changes h
  | measurementsGetParent => exact measurementsGetParent_changes h
  | measurementsCleanup => exact measurementsCleanup_changes h
  | measurementsUpdate => exact measurementsUpdate_changes h
  | strategyInsert =>
    obtain ⟨r, hr, rfl⟩ := Option.map_eq_some_iff.mp h
    exact strategyInsert_changes hr
  | strategyErase => exact strategyErase_changes h

end Changes

/-! ## Valid tables -/

/-- The table entries of a node are valid: PIT entries are attached where `findOrInsert` puts them and have
addresses of their own, and next hops are in order. -/
structure ValidEntries (nextPitEntry : ℕ) (name : Name) (te : TableEntries) : Prop where
  attached : ∀ e ∈ te.pitEntries, e.nameTreeEntry = name ∧
    e.interest.name.take (nteDepth e.interest.name) = name ∧ e.id < nextPitEntry
  ids : (te.pitEntries.map NtPitEntry.id).Nodup
  ordered : ∀ nextHops, te.fibEntry = some nextHops → Ordered nextHops

/-- **Valid tables.** -/
structure Valid (t : Tables) : Prop where
  shaped : t.nameTree.Shaped
  entries : ∀ name, ValidEntries t.nextPitEntry name (t.tablesAt name)

section Valid

variable {counted : Prop} {t t' : Tables}

theorem tablesAt_edit_eq (t : Tables) (name : Name) (f : TableEntries → TableEntries) (m : Name) :
    (t.edit name f).tablesAt m =
      if name = m ∧ (t.nameTree.find? name).isSome then f (t.tablesAt m) else t.tablesAt m := by
  by_cases hname : (t.nameTree.find? name).isSome
  · rw [tablesAt, edit, tablesAt_edit hname]
    simp only [hname, and_true]
    rfl
  · rw [if_neg fun h => hname h.2]
    unfold tablesAt edit NameTree.edit NameTree.tablesAt
    rw [OrdMap.find?_modify]
    split_ifs with hm
    · subst hm
      rw [Option.not_isSome_iff_eq_none.mp hname]
      rfl
    · rfl

theorem Valid.edit (h : t.Valid) (name : Name) (f : TableEntries → TableEntries)
    (htree : t'.nameTree = (t.edit name f).nameTree) (hnext : t.nextPitEntry ≤ t'.nextPitEntry)
    (hf : ValidEntries t'.nextPitEntry name (f (t.tablesAt name))) : t'.Valid := by
  have htables : ∀ m, t'.tablesAt m = (t.edit name f).tablesAt m := fun m => by rw [tablesAt, htree]; rfl
  refine ⟨htree ▸ h.shaped.edit name f, fun m => ?_⟩
  rw [htables, tablesAt_edit_eq]
  split_ifs with hm
  · rw [← hm.1]
    exact hf
  · obtain ⟨hattached, hids, hordered⟩ := h.entries m
    refine ⟨fun e he => ?_, hids, hordered⟩
    obtain ⟨hnte, hname, hid⟩ := hattached e he
    exact ⟨hnte, hname, hid.trans_le hnext⟩

/-- **A change keeps the tables valid.** -/
theorem Change.valid (hchange : Change counted t t') (h : t.Valid) : t'.Valid := by
  cases hchange with
  | lookup hlen hdepth =>
    refine ⟨h.shaped.lookup hlen hdepth, fun m => ?_⟩
    rw [tablesAt, Tables.lookup, tablesAt_lookup]
    exact h.entries m
  | eraseIfEmpty name canEraseAncestors =>
    refine ⟨h.shaped.eraseIfEmpty name canEraseAncestors, fun m => ?_⟩
    rw [tablesAt, Tables.eraseIfEmpty, h.shaped.tablesAt_eraseIfEmpty]
    exact h.entries m
  | @addFib name hname hnone =>
    obtain ⟨hattached, hids, -⟩ := h.entries name
    refine h.edit name (fun te => { te with fibEntry := some [] }) rfl le_rfl ?_
    refine ⟨hattached, hids, ?_⟩
    rintro _ ⟨⟩
    exact ⟨List.nodup_nil, List.Pairwise.nil⟩
  | @setFib name _ _ hsome hordered =>
    obtain ⟨hattached, hids, hfib⟩ := h.entries name
    refine h.edit name _ rfl le_rfl ?_
    refine ⟨hattached, hids, ?_⟩
    rintro _ ⟨⟩
    exact hordered (hfib _ hsome)
  | @eraseFib name hname hsome =>
    obtain ⟨hattached, hids, -⟩ := h.entries name
    refine h.edit name (fun te => { te with fibEntry := none }) rfl le_rfl ?_
    refine ⟨hattached, hids, ?_⟩
    rintro _ ⟨⟩
  | insertPit interest hname =>
    obtain ⟨hattached, hids, hfib⟩ := h.entries (interest.name.take (nteDepth interest.name))
    refine h.edit _ (fun te =>
      { te with
        pitEntries := te.pitEntries ++
          [{ id := t.nextPitEntry, interest := interest, nameTreeEntry := _ }] }) rfl (Nat.le_succ _) ?_
    refine ⟨?_, ?_, hfib⟩
    · intro e he
      rcases List.mem_append.mp he with he | he
      · obtain ⟨hnte, hname, hid⟩ := hattached e he
        exact ⟨hnte, hname, hid.trans (Nat.lt_succ_self _)⟩
      · rw [List.mem_singleton.mp he]
        exact ⟨rfl, rfl, Nat.lt_succ_self _⟩
    · rw [List.map_append, List.map_singleton]
      refine hids.append (List.nodup_singleton _) (List.disjoint_singleton.mpr fun hmem => ?_)
      obtain ⟨e, he, hid⟩ := List.mem_map.mp hmem
      exact absurd hid (hattached e he).2.2.ne
  | editHosts name hg g' =>
    obtain ⟨hattached, hids, hfib⟩ := h.entries name
    obtain ⟨hids', hkeeps⟩ := hg _ hids
    refine h.edit name _ rfl le_rfl ?_
    refine ⟨fun e he => ?_, hids', hfib⟩
    obtain ⟨e', he', hid, hinterest, hnte⟩ := hkeeps e he
    rw [hid, hinterest, hnte]
    exact hattached e' he'
  | @setStrategy name _ hroot =>
    obtain ⟨hattached, hids, hfib⟩ := h.entries name
    refine h.edit name _ rfl le_rfl ?_
    exact ⟨hattached, hids, hfib⟩

theorem Changes.valid (hchanges : Changes counted t t') (h : t.Valid) : t'.Valid := by
  induction hchanges with
  | refl => exact h
  | tail _ hchange ih => exact hchange.valid ih

theorem valid_initial (defaultStrategy : Option Name) : (initial defaultStrategy).Valid := by
  have hempty : Valid { nameTree := .empty } :=
    ⟨shaped_empty, fun name => ⟨fun e he => absurd he List.not_mem_nil, List.nodup_nil, by rintro _ ⟨⟩⟩⟩
  cases defaultStrategy with
  | none => exact hempty
  | some strategy =>
    have hlookup : Change True { nameTree := .empty } (Tables.lookup { nameTree := .empty } [] 0) :=
      .lookup le_rfl (Nat.zero_le _)
    exact (Change.setStrategy fun _ => rfl : Change True _ _).valid (hlookup.valid hempty)

theorem run_concat (S : NextHopSort) (registry : StrategyRegistry) (t : Tables) (ops : List TableOp)
    (op : TableOp) :
    run S registry t (ops ++ [op]) = (run S registry t ops).bind fun t => step S registry t op := by
  rw [run, List.foldlM_append]
  refine Option.bind_congr fun t _ => ?_
  rw [List.foldlM_cons]
  cases step S registry t op <;> rfl

/-- **Every run keeps the tables valid.** -/
theorem run_valid {S : NextHopSort} {registry : StrategyRegistry} (defaultStrategy : Option Name)
    {ops : List TableOp} (h : run S registry (initial defaultStrategy) ops = some t) : t.Valid := by
  induction ops using List.reverseRecOn generalizing t with
  | nil =>
    cases h
    exact valid_initial defaultStrategy
  | append_singleton ops op ih =>
    rw [run_concat] at h
    obtain ⟨t₀, hrun, hstep⟩ := Option.bind_eq_some_iff.mp h
    exact (step_changes hstep).valid (ih hrun)

/-- **The rule for runs**: what every change keeps holds in every run. -/
theorem run_induction {S : NextHopSort} {registry : StrategyRegistry} {defaultStrategy : Option Name}
    {P : Tables → Prop} (init : P (initial defaultStrategy))
    (change : ∀ {counted : Prop} {t t' : Tables}, Change counted t t' → t.Valid → P t → P t')
    {ops : List TableOp} (h : run S registry (initial defaultStrategy) ops = some t) : P t := by
  induction ops using List.reverseRecOn generalizing t with
  | nil =>
    cases h
    exact init
  | append_singleton ops op ih =>
    rw [run_concat] at h
    obtain ⟨t₀, hrun, hstep⟩ := Option.bind_eq_some_iff.mp h
    have hchanges := step_changes hstep
    clear h hstep
    induction hchanges with
    | refl => exact ih hrun
    | tail hchanges hchange ihchanges =>
      exact change hchange (Changes.valid hchanges (run_valid defaultStrategy hrun)) ihchanges

theorem Valid.findLongestPrefixMatchPit_eq (h : t.Valid) {nte : Name} {e : NtPitEntry}
    (he : e ∈ (t.tablesAt nte).pitEntries) (sel : EntrySelector) :
    t.nameTree.findLongestPrefixMatchPit sel e = t.nameTree.findLongestPrefixMatch sel e.interest.name := by
  obtain ⟨hnte, hname, -⟩ := (h.entries nte).attached e he
  refine h.shaped.findLongestPrefixMatchPit_eq ?_ ?_
  · rw [hnte]
    refine isSome_of_tablesAt fun hempty => ?_
    rw [tablesAt, hempty] at he
    cases he
  · rw [hnte, ← hname]
    exact List.take_prefix _ _

end Valid

/-! ## A small forwarder -/

section Sample

/-- `ndn:/A` and `ndn:/A/B`, and a name below `ndn:/A` that ends with an implicit digest. -/
def nameA : Name := [.generic [65]]

def nameAB : Name := nameA ++ [.generic [66]]

def nameADigest : Name := nameA ++ [⟨1, [7]⟩]

def insertionSort : NextHopSort where
  sort := List.insertionSort fun a b => a.cost ≤ b.cost
  perm := List.perm_insertionSort _
  sorted l := by
    have := List.pairwise_insertionSort (fun a b : NextHop => a.cost ≤ b.cost) l
    exact this

def freeRegistry : StrategyRegistry where
  create := .created
  find := some

def pitADigest : NtPitEntry := { id := 0, interest := { name := nameADigest, nonce := 1 }, nameTreeEntry := nameA }

/-- A forwarder that has the PIT entry, and a FIB entry at its name. -/
def digestTables : Tables :=
  (run insertionSort freeRegistry (initial (some nameA))
    [.pitFindOrInsert pitADigest.interest true, .fibInsert nameADigest]).getD (initial none)

theorem run_digestTables :
    run insertionSort freeRegistry (initial (some nameA))
      [.pitFindOrInsert pitADigest.interest true, .fibInsert nameADigest] = some digestTables := rfl

end Sample

end Tables

end Ns3Ndn
