import Ns3Ndn.Lib.OrdMap
import Ns3Ndn.Rib.Entry

/-!
# The RIB table

`NFD/daemon/rib/rib.cpp`: a map from names to entries, the tree of entries by longest proper
prefix, the multimap from faces to entries, and the number of routes. Entries live on a heap and
an entry keeps its address after it leaves the map.

`addChild` and `removeChild` start with an assertion; a failed assertion makes the operation
undefined (`none`).

* `Rib.insert`, `Rib.erase`, `Rib.findParent`, `Rib.findDescendants`, `Rib.eraseEntry`;
* `RibOp`, `Rib.run`: any sequence of insertions and erasures from the empty table.
-/

namespace Ns3Ndn

open OrdLib

/-- The RIB. `nEntries` addresses have been allocated so far. -/
structure Rib where
  entries : EntryPtr → RibEntry
  nEntries : ℕ
  rib : OrdMap Name EntryPtr
  faceEntries : List (ℕ × EntryPtr)
  nItems : ℕ

/-- A call of `Rib::insert` or `Rib::erase`. -/
inductive RibOp where
  | insert (name : Name) (route : Route)
  | erase (name : Name) (route : Route)
deriving DecidableEq

namespace Rib

def empty : Rib := ⟨fun _ => {}, 0, OrdMap.empty, [], 0⟩

/-- The loop of `findParent`: try the prefixes of length `i - 1`, ..., `0`. -/
def findParentFrom (rib : OrdMap Name EntryPtr) (name : Name) : ℕ → Option EntryPtr
  | 0 => none
  | i + 1 =>
    match rib.find? (name.take i) with
    | some p => some p
    | none => findParentFrom rib name i

variable (s : Rib)

def modify (p : EntryPtr) (f : RibEntry → RibEntry) : Rib :=
  { s with entries := Function.update s.entries p (f (s.entries p)) }

def findParent (name : Name) : Option EntryPtr := findParentFrom s.rib name name.length

/-- The entries under `name`, scanned from its own position until the first that is not. -/
def findDescendants (name : Name) : List EntryPtr :=
  match s.rib.find? name with
  | some _ => ((s.rib.after name).takeWhile fun b => name.isPrefixOf b.1).map Prod.snd
  | none => []

def findDescendantsForNonInsertedName (name : Name) : List EntryPtr :=
  (s.rib.toList.filter fun b => name.isPrefixOf b.1).map Prod.snd

/-! ## The tree -/

def addChild (parent child : EntryPtr) : Option Rib :=
  if (s.entries child).parent = none then
    some ((s.modify child fun e => { e with parent := some parent }).modify parent
      fun e => { e with children := e.children ++ [child] })
  else none

def removeChild (parent child : EntryPtr) : Option Rib :=
  if (s.entries child).parent = some parent then
    some ((s.modify child fun e => { e with parent := none }).modify parent
      fun e => { e with children := e.children.filter (· ≠ child) })
  else none

/-- One turn of the loop of `insert`: a descendant whose parent is the new entry's parent becomes
the new entry's child. -/
def adopt (parent : Option EntryPtr) (entry : EntryPtr) (s : Rib) (child : EntryPtr) :
    Option Rib :=
  if (s.entries child).parent = parent then
    match parent with
    | some p => (s.removeChild p child).bind fun s => s.addChild entry child
    | none => s.addChild entry child
  else some s

def disown (parent : Option EntryPtr) (entry : EntryPtr) (s : Rib) (child : EntryPtr) :
    Option Rib :=
  (s.removeChild entry child).bind fun s =>
    match parent with
    | some p => s.addChild p child
    | none => some s

/-- `eraseEntry`: unlink the entry at `name`, hand its children up, leave the map. -/
def eraseEntry (name : Name) (entry : EntryPtr) : Option Rib :=
  let parent := (s.entries entry).parent
  (match parent with
    | some p => s.removeChild p entry
    | none => some s).bind fun s =>
  (((s.entries entry).children).foldlM (disown parent entry) s).bind fun s =>
  some { s with rib := s.rib.erase name }

/-! ## Insertion and erasure -/

def emplaceFace (faceId : ℕ) (entry : EntryPtr) : Rib :=
  { s with faceEntries := s.faceEntries.orderedInsert (fun a b => a.1 < b.1) (faceId, entry) }

def newEntry (name : Name) (route : Route) : Rib :=
  { s with
    entries := Function.update s.entries s.nEntries (({ name } : RibEntry).insertRoute route).1
    nEntries := s.nEntries + 1
    rib := s.rib.insert name s.nEntries
    nItems := s.nItems + 1 }

/-- Link the entry of a new name: first under its parent, then above the parent's children that
lie under the name. -/
def linkEntry (name : Name) (entry : EntryPtr) : Option Rib :=
  let parent := s.findParent name
  (match parent with
    | some p => s.addChild p entry
    | none => some s).bind fun s =>
  (s.findDescendants name).foldlM (adopt parent entry) s

def insertRouteAt (p : EntryPtr) (route : Route) : Rib :=
  ({ s.modify p (fun e => (e.insertRoute route).1) with
    nItems := s.nItems + 1 } : Rib).emplaceFace route.faceId p

/-- `Rib::insert`. -/
def insert (name : Name) (route : Route) : Option Rib :=
  match s.rib.find? name with
  | some p =>
    if ((s.entries p).insertRoute route).2 then some (s.insertRouteAt p route)
    else some (s.modify p fun e => e.setRoute route)
  | none =>
    ((s.newEntry name route).linkEntry name s.nEntries).map fun t =>
      t.emplaceFace route.faceId s.nEntries

def eraseRouteAt (p : EntryPtr) (route : Route) : Rib :=
  let s := { s.modify p (fun e => e.eraseRoute route) with nItems := wrapPred s.nItems }
  if (s.entries p).hasFaceId route.faceId then s
  else { s with faceEntries := s.faceEntries.erase (route.faceId, p) }

/-- `Rib::erase`. -/
def erase (name : Name) (route : Route) : Option Rib :=
  match s.rib.find? name with
  | none => some s
  | some p =>
    match (s.entries p).findRoute route with
    | none => some s
    | some _ =>
      let s := s.eraseRouteAt p route
      if (s.entries p).routes.isEmpty then s.eraseEntry name p else some s

/-! ## What the edits change -/

variable {s} {p q : EntryPtr} {name : Name}

theorem modify_entries_self (p : EntryPtr) (f : RibEntry → RibEntry) :
    (s.modify p f).entries p = f (s.entries p) := Function.update_self _ _ _

theorem modify_entries_of_ne (h : q ≠ p) (f : RibEntry → RibEntry) :
    (s.modify p f).entries q = s.entries q := Function.update_of_ne h _ _

theorem insertRouteAt_entries_self (p : EntryPtr) (route : Route) :
    (s.insertRouteAt p route).entries p = ((s.entries p).insertRoute route).1 :=
  Function.update_self _ _ _

theorem insertRouteAt_entries_of_ne (h : q ≠ p) (route : Route) :
    (s.insertRouteAt p route).entries q = s.entries q := Function.update_of_ne h _ _

theorem newEntry_entries_self (name : Name) (route : Route) :
    (s.newEntry name route).entries s.nEntries = (({ name } : RibEntry).insertRoute route).1 :=
  Function.update_self _ _ _

theorem newEntry_entries_of_ne (h : q ≠ s.nEntries) {route : Route} :
    (s.newEntry name route).entries q = s.entries q := Function.update_of_ne h _ _

theorem eraseRouteAt_eq (p : EntryPtr) (route : Route) :
    s.eraseRouteAt p route =
      { s.modify p (fun e => e.eraseRoute route) with
        nItems := wrapPred s.nItems
        faceEntries := if ((s.entries p).eraseRoute route).hasFaceId route.faceId then s.faceEntries
          else s.faceEntries.erase (route.faceId, p) } := by
  unfold eraseRouteAt
  simp only [modify_entries_self]
  split_ifs <;> rfl

theorem eraseRouteAt_rib (p : EntryPtr) (route : Route) :
    (s.eraseRouteAt p route).rib = s.rib := by
  rw [eraseRouteAt_eq]
  rfl

theorem eraseRouteAt_nItems (p : EntryPtr) (route : Route) :
    (s.eraseRouteAt p route).nItems = wrapPred s.nItems := by
  rw [eraseRouteAt_eq]

theorem eraseRouteAt_faceEntries (p : EntryPtr) (route : Route) :
    (s.eraseRouteAt p route).faceEntries =
      if ((s.entries p).eraseRoute route).hasFaceId route.faceId then s.faceEntries
      else s.faceEntries.erase (route.faceId, p) := by
  rw [eraseRouteAt_eq]

theorem eraseRouteAt_entries_self (p : EntryPtr) (route : Route) :
    (s.eraseRouteAt p route).entries p = (s.entries p).eraseRoute route := by
  rw [eraseRouteAt_eq]
  exact Function.update_self _ _ _

theorem eraseRouteAt_entries_of_ne (h : q ≠ p) (route : Route) :
    (s.eraseRouteAt p route).entries q = s.entries q := by
  rw [eraseRouteAt_eq]
  exact Function.update_of_ne h _ _

/-- One call. -/
def apply (s : Rib) : RibOp → Option Rib
  | .insert name route => s.insert name route
  | .erase name route => s.erase name route

def run (ops : List RibOp) : Option Rib := ops.foldlM apply empty

theorem run_concat (ops : List RibOp) (op : RibOp) :
    run (ops ++ [op]) = (run ops).bind fun s => s.apply op := by
  simp [run, List.foldlM_append]

end Rib

end Ns3Ndn
