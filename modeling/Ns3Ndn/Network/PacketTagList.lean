import Ns3Ndn.Lib.Links
import Ns3Ndn.Lib.Run

/-!
# Packet tags

`network/model/packet-tag-list.cc`: the tags of a packet are a linked list, and the lists of packets that were copied
from each other share their tails. A list is changed up to the first node that is counted twice; from there on `Remove`
and `Replace` copy nodes.

`Replace` writes the new tag over the old one when it finds it before the first shared node, into the bytes that the
old tag had. A longer tag does not fit there, and after a shorter one some bytes of the old one are left.

* **`run_agree_iff`**: the lists agree with the maps all along a run exactly when all its tags fit.
-/

set_option linter.unusedSectionVars false

namespace Ns3Ndn.PacketTagList

open Function LinkLib LinkLib.Links

structure Tag where
  tid : ℕ
  data : List UInt8
  deriving DecidableEq

/-- `TagBuffer`: the bytes of the tag over those of the buffer. More bytes than the buffer has are an error. -/
def serializeInto (buffer bytes : List UInt8) : Option (List UInt8) :=
  if bytes.length ≤ buffer.length then some (bytes ++ buffer.drop bytes.length) else none

/-- The lists `ι`, each with its pointer `m_next`, and the `TagData` nodes. -/
abbrev Tree (ι : Type) := Links ι Tag

/-- How the walk to the first shared node ends: at the end of the list, at a shared node or at the tag. -/
inductive Search (ι : Type) where
  | ended
  | merge (prevNext : ι ⊕ ℕ) (cur : ℕ)
  | found (prevNext : ι ⊕ ℕ) (cur : ℕ)

namespace Tree

variable {ι : Type} [DecidableEq ι]

/-- The first tag of a kind behind a pointer. -/
def lookup (s : Tree ι) (tid : ℕ) : ℕ → ι ⊕ ℕ → Option Tag
  | 0, _ => none
  | fuel + 1, loc =>
    match s.next loc with
    | none => none
    | some cur => (s.val cur).bind fun tag => if tag.tid = tid then some tag else lookup s tid fuel (.inr cur)

/-- A bound for the nodes of a list. -/
def fuel (s : Tree ι) : ℕ := s.fresh + 1

def peek (s : Tree ι) (l : ι) (tid : ℕ) : Option (List UInt8) := (s.lookup tid s.fuel (.inl l)).map Tag.data

/-- `COWTraverse`: the search for the tag or a shared node. -/
def search (s : Tree ι) (tid : ℕ) : ℕ → ι ⊕ ℕ → Search ι
  | 0, _ => .ended
  | fuel + 1, prevNext =>
    match s.next prevNext with
    | none => .ended
    | some cur =>
      if s.count cur > 1 then .merge prevNext cur
      else if (s.val cur).map Tag.tid = some tid then .found prevNext cur
      else search s tid fuel (.inr cur)

/-- `COWTraverse`: the loop that copies nodes up to the tag. -/
def unshare (tid : ℕ) : ℕ → Tree ι → ι ⊕ ℕ → Option (Tree ι × (ι ⊕ ℕ) × ℕ)
  | 0, _, _ => none
  | fuel + 1, s, prevNext =>
    (s.next prevNext).bind fun cur => (s.val cur).bind fun tag =>
      if tag.tid = tid then some (s, prevNext, cur)
      else if s.count cur > 1 then
        -- `copy->next->count++` needs a next node
        if s.next (.inr cur) = none then none
        else
          unshare tid fuel
            ((((s.dec cur).alloc tag (s.next (.inr cur))).inc (s.next (.inr cur))).setNext prevNext (some s.fresh))
            (.inr s.fresh)
      else none

/-- `COWTraverse`, with the tag after the call when it is found. -/
def cowTraverse (s : Tree ι) (l : ι) (tid : ℕ) (writer : Tree ι → Bool → ℕ → ι ⊕ ℕ → Option (Tree ι × Tag)) :
    Option (Tree ι × Option Tag) :=
  match s.search tid s.fuel (.inl l) with
  | .ended => some (s, none)
  | .found prevNext cur => (writer s true cur prevNext).map fun r => (r.1, some r.2)
  | .merge prevNext _ =>
    if s.lookup tid s.fuel prevNext = none then some (s, none)
    else (unshare tid s.fuel s prevNext).bind fun r =>
      if r.1.count r.2.2 > 1 then (writer r.1 false r.2.2 r.2.1).map fun r => (r.1, some r.2) else none

def removeWriter (s : Tree ι) (preMerge : Bool) (cur : ℕ) (prevNext : ι ⊕ ℕ) : Option (Tree ι × Tag) :=
  (s.val cur).map fun tag =>
    if preMerge then ((s.setNext prevNext (s.next (.inr cur))).free cur, tag)
    else (((s.setNext prevNext (s.next (.inr cur))).dec cur).inc (s.next (.inr cur)), tag)

def replaceWriter (tag : Tag) (s : Tree ι) (preMerge : Bool) (cur : ℕ) (prevNext : ι ⊕ ℕ) : Option (Tree ι × Tag) :=
  if preMerge then
    (s.val cur).bind fun old =>
      (serializeInto old.data tag.data).map fun data => (s.setVal cur { old with data := data }, tag)
  else
    some ((((s.dec cur).alloc tag (s.next (.inr cur))).inc (s.next (.inr cur))).setNext prevNext (some s.fresh), tag)

def remove (s : Tree ι) (l : ι) (tid : ℕ) : Option (Tree ι × Option Tag) := s.cowTraverse l tid removeWriter

def add (s : Tree ι) (l : ι) (tag : Tag) : Option (Tree ι) :=
  if s.lookup tag.tid s.fuel (.inl l) = none then
    some ((s.alloc tag (s.next (.inl l))).setNext (.inl l) (some s.fresh))
  else none

def replace (s : Tree ι) (l : ι) (tag : Tag) : Option (Tree ι) :=
  (s.cowTraverse l tag.tid (replaceWriter tag)).bind fun r => if r.2.isSome then some r.1 else r.1.add l tag

/-- `RemoveAll`: nodes up to the first one that is still counted go. -/
def removeLoop : ℕ → Tree ι → Option ℕ → Tree ι
  | fuel + 1, s, some cur =>
    if (s.dec cur).count cur > 0 then s.dec cur else removeLoop fuel ((s.dec cur).free cur) (s.next (.inr cur))
  | _, s, _ => s

def removeAll (s : Tree ι) (l : ι) : Tree ι := (removeLoop s.fuel s (s.next (.inl l))).setNext (.inl l) none

/-- The assignment `l = o`. With an empty list `l` it is the copy constructor. -/
def assign (s : Tree ι) (l o : ι) : Tree ι :=
  if s.next (.inl l) = s.next (.inl o) then s
  else ((s.removeAll l).setNext (.inl l) ((s.removeAll l).next (.inl o))).inc ((s.removeAll l).next (.inl o))

end Tree

/-- A call. The destructor is `removeAll`. -/
inductive TagOp (ι : Type) where
  | add (l : ι) (tag : Tag)
  | remove (l : ι) (tid : ℕ)
  | replace (l : ι) (tag : Tag)
  | removeAll (l : ι)
  | assign (l o : ι)

section Run

variable {ι : Type} [DecidableEq ι]

/-- One call. -/
def Tree.step (s : Tree ι) : TagOp ι → Option (Tree ι)
  | .add l tag => s.add l tag
  | .remove l tid => (s.remove l tid).map Prod.fst
  | .replace l tag => s.replace l tag
  | .removeAll l => some (s.removeAll l)
  | .assign l o => some (s.assign l o)

abbrev Maps (ι : Type) := ι → ℕ → Option (List UInt8)

/-- One call on the map of its list. `Add` is an error for a kind that is in the map. -/
def Maps.step (m : Maps ι) : TagOp ι → Option (Maps ι)
  | .add l tag => if m l tag.tid = none then some (update m l (update (m l) tag.tid (some tag.data))) else none
  | .remove l tid => some (update m l (update (m l) tid none))
  | .replace l tag => some (update m l (update (m l) tag.tid (some tag.data)))
  | .removeAll l => some (update m l fun _ => none)
  | .assign l o => some (update m l (m o))

def Tree.run (ops : List (TagOp ι)) : Option (Tree ι) := ops.foldlM Tree.step {}

def Maps.run (ops : List (TagOp ι)) : Option (Maps ι) := ops.foldlM Maps.step fun _ _ => none

end Run

/-! ## Walks -/

section Walks

variable {ι : Type} [Fintype ι] [DecidableEq ι]

/-- A place in a list: the nodes before it belong to this list alone and are not of the kind. -/
structure Cursor (s : Tree ι) (path : ι → List ℕ) (vals : ι → List Tag) (tid : ℕ) (l : ι) (as bs : List ℕ)
    (vs ws : List Tag) : Prop where
  path : path l = as ++ bs
  vals : vals l = vs ++ ws
  length : vs.length = as.length
  own : ∀ b ∈ as, s.count b = 1
  others : ∀ w ∈ vs, w.tid ≠ tid

variable {s : Tree ι} {path : ι → List ℕ} {vals : ι → List Tag} {l : ι} {as bs : List ℕ} {vs ws : List Tag} {a : ℕ}
  {v : Tag} {tid fuel : ℕ}

theorem Cursor.start (s : Tree ι) (path : ι → List ℕ) (vals : ι → List Tag) (tid : ℕ) (l : ι) :
    Cursor s path vals tid l [] (path l) [] (vals l) := ⟨rfl, rfl, rfl, by simp, by simp⟩

theorem Cursor.next (h : Cursor s path vals tid l as (a :: bs) vs (v :: ws)) (ha : s.count a = 1) (hv : v.tid ≠ tid) :
    Cursor s path vals tid l (as ++ [a]) bs (vs ++ [v]) ws where
  path := by simp [h.path]
  vals := by simp [h.vals]
  length := by simp [h.length]
  own b hb := by
    rcases List.mem_append.mp hb with hb | hb
    · exact h.own b hb
    · rwa [List.mem_singleton.mp hb]
  others w hw := by
    rcases List.mem_append.mp hw with hw | hw
    · exact h.others w hw
    · rwa [List.mem_singleton.mp hw]

theorem Cursor.cases (hs : s.Inv path vals) (h : Cursor s path vals tid l as bs vs ws) :
    (s.next (lastLoc (.inl l) as) = none ∧ bs = [] ∧ ws = []) ∨
      ∃ a bs' v ws', s.next (lastLoc (.inl l) as) = some a ∧ bs = a :: bs' ∧ ws = v :: ws' ∧ s.val a = some v ∧
        0 < s.count a := by
  have hat := hs.lastLoc_eq h.path
  have hlen := congrArg List.length (hs.hasVals l)
  rw [h.path, h.vals] at hlen
  simp only [List.length_map, List.length_append, h.length] at hlen
  cases bs with
  | nil =>
    refine .inl ⟨hat, rfl, ?_⟩
    rw [List.length_nil] at hlen
    exact List.length_eq_zero_iff.mp (by omega)
  | cons a bs =>
    cases ws with
    | nil => simp at hlen
    | cons v ws =>
      refine .inr ⟨a, bs, v, ws, hat.1, rfl, rfl, (hs.vals_split h.path h.vals h.length).1, ?_⟩
      rw [hs.count]
      exact refs_pos (hs.mem_locs hat.1) hat.1

/-- The walk to the first tag of a kind, from any place. -/
theorem lookup_eq {loc : ι ⊕ ℕ} (hp : Path s.next loc bs) (hw : bs.map s.val = ws.map some)
    (hfuel : bs.length < fuel) : s.lookup tid fuel loc = ws.find? (·.tid = tid) := by
  induction bs generalizing loc ws fuel with
  | nil =>
    cases fuel with
    | zero => omega
    | succ fuel =>
      have hnone : s.next loc = none := hp
      cases ws with
      | nil => simp [Tree.lookup, hnone]
      | cons v ws => simp at hw
  | cons a bs ih =>
    cases fuel with
    | zero => omega
    | succ fuel =>
      cases ws with
      | nil => simp at hw
      | cons v ws =>
        rw [List.map_cons, List.map_cons, List.cons.injEq] at hw
        rw [Tree.lookup, hp.1]
        simp only [hw.1, Option.bind_some]
        rw [ih hp.2 hw.2 (by simpa using hfuel)]
        by_cases hv : v.tid = tid
        · simp [hv]
        · simp [hv]

section

variable (hs : s.Inv path vals)

include hs

theorem Cursor.length_lt_fuel (h : Cursor s path vals tid l as bs vs ws) : bs.length < s.fuel := by
  have hlen := hs.length_path_le l
  rw [h.path, List.length_append] at hlen
  rw [Tree.fuel]
  omega

theorem lookup_start (l : ι) (tid : ℕ) :
    s.lookup tid s.fuel (.inl l) = (vals l).find? (·.tid = tid) :=
  lookup_eq (hs.hasPath l) (hs.hasVals l) ((Cursor.start s path vals tid l).length_lt_fuel hs)

/-- **The search**: the tag before a shared node, a shared node before the tag, or neither. -/
theorem search_cases (h : Cursor s path vals tid l as bs vs ws) (hfuel : bs.length < fuel) :
    (s.search tid fuel (lastLoc (.inl l) as) = .ended ∧ ∀ w ∈ vals l, w.tid ≠ tid) ∨
      ∃ as' a bs' vs' v ws', Cursor s path vals tid l as' (a :: bs') vs' (v :: ws') ∧
        ((s.search tid fuel (lastLoc (.inl l) as) = .found (lastLoc (.inl l) as') a ∧ s.count a = 1 ∧ v.tid = tid) ∨
          (s.search tid fuel (lastLoc (.inl l) as) = .merge (lastLoc (.inl l) as') a ∧ 1 < s.count a)) := by
  induction fuel generalizing as bs vs ws with
  | zero => omega
  | succ fuel ih =>
    rcases h.cases hs with ⟨hnone, rfl, rfl⟩ | ⟨a, bs', v, ws', hnext, rfl, rfl, hval, hpos⟩
    · left
      refine ⟨by simp [Tree.search, hnone], ?_⟩
      rw [h.vals, List.append_nil]
      exact h.others
    · rw [Tree.search, hnext]
      simp only [hval, Option.map_some, Option.some.injEq]
      by_cases hcount : s.count a > 1
      · right
        rw [if_pos hcount]
        exact ⟨as, a, bs', vs, v, ws', h, .inr ⟨rfl, hcount⟩⟩
      rw [if_neg hcount]
      have hone : s.count a = 1 := by omega
      by_cases hv : v.tid = tid
      · right
        rw [if_pos hv]
        exact ⟨as, a, bs', vs, v, ws', h, .inl ⟨rfl, hone, hv⟩⟩
      · rw [if_neg hv, ← lastLoc_concat (.inl l) as a]
        exact ih (h.next hone hv) (by simpa using hfuel)

theorem Cursor.copy (h : Cursor s path vals tid l as (a :: bs) vs (v :: ws)) (hv : v.tid ≠ tid) :
    Cursor ((((s.dec a).alloc v (s.next (.inr a))).inc (s.next (.inr a))).setNext (lastLoc (.inl l) as) (some s.fresh))
      (update path l (as ++ s.fresh :: bs)) vals tid l (as ++ [s.fresh]) bs (vs ++ [v]) ws where
  path := by simp
  vals := by simp [h.vals]
  length := by simp [h.length]
  own b hb := by
    have hcount := hs.count_copy h.path v b
    have hnodup : (as ++ a :: bs).Nodup := h.path ▸ (hs.hasPath l).nodup
    have hrest : b ∉ a :: bs := by
      intro hmem
      rcases List.mem_append.mp hb with hb | hb
      · exact (List.nodup_append.mp hnodup).2.2 b hb b hmem rfl
      · rw [List.mem_singleton.mp hb] at hmem
        exact lt_irrefl _ (hs.lt_fresh_of_mem (i := l) (h.path ▸ List.mem_append_right as hmem))
    have hab : a ≠ b := fun hab => hrest (hab ▸ List.mem_cons_self)
    have hnext : s.next (.inr a) ≠ some b := by
      intro hnext
      exact hrest (List.mem_cons_of_mem a ((hs.lastLoc_eq h.path).2.head_mem hnext))
    rw [if_neg hab, if_neg hnext] at hcount
    rcases List.mem_append.mp hb with hb | hb
    · have hlt : b < s.fresh := hs.lt_fresh_of_mem (i := l) (h.path ▸ List.mem_append_left _ hb)
      rw [h.own b hb, if_neg hlt.ne'] at hcount
      omega
    · obtain rfl := List.mem_singleton.mp hb
      rw [s.count_of_val_eq_none (hs.fresh s.fresh le_rfl), if_pos rfl] at hcount
      omega
  others w hw := by
    rcases List.mem_append.mp hw with hw | hw
    · exact h.others w hw
    · rwa [List.mem_singleton.mp hw]

/-- **The copies**: the nodes up to the tag belong to the list alone, and the lists have the tags they had. -/
theorem unshare_eq (h : Cursor s path vals tid l as (a :: bs) vs (v :: ws)) (ha : 1 < s.count a)
    (hex : ∃ w ∈ v :: ws, w.tid = tid) (hfuel : bs.length < fuel) :
    ∃ s' path' as' a' bs' vs' v' ws', Tree.unshare tid fuel s (lastLoc (.inl l) as) = some (s', lastLoc (.inl l) as', a') ∧
      s'.Inv path' vals ∧ Cursor s' path' vals tid l as' (a' :: bs') vs' (v' :: ws') ∧ v'.tid = tid ∧ 1 < s'.count a' := by
  induction fuel generalizing s path as a bs vs v ws with
  | zero => omega
  | succ fuel ih =>
    have hat := hs.lastLoc_eq h.path
    have hval := (hs.vals_split h.path h.vals h.length).1
    rw [Tree.unshare, hat.1, Option.bind_some, hval, Option.bind_some]
    by_cases hv : v.tid = tid
    · rw [if_pos hv]
      exact ⟨s, path, as, a, bs, vs, v, ws, rfl, hs, h, hv, ha⟩
    rw [if_neg hv, if_pos ha]
    have hcopy := hs.copy h.path h.own h.vals h.length v
    rw [← h.vals, update_eq_self] at hcopy
    have hcur := h.copy hs hv
    have hws : ∃ w ∈ ws, w.tid = tid := by
      obtain ⟨w, hw, hwt⟩ := hex
      rcases List.mem_cons.mp hw with rfl | hw
      · exact absurd hwt hv
      · exact ⟨w, hw, hwt⟩
    -- the tag is further on, so there is a next node
    rcases hcur.cases hcopy with ⟨-, -, rfl⟩ | ⟨b, bs', v', ws', hnext, rfl, rfl, -, -⟩
    · simp at hws
    have hb : s.next (.inr a) = some b := hat.2.1
    rw [if_neg (by simp [hb]), ← lastLoc_concat (.inl l) as s.fresh]
    refine ih hcopy hcur ?_ hws (by simpa using hfuel)
    have hcount := hs.count_copy h.path v b
    have hab : a ≠ b := fun hab => (hs.notMem_split h.path).2 (hab ▸ List.mem_cons_self)
    have hpos : 0 < s.count b := by
      rw [hs.count]
      exact refs_pos (hs.mem_locs hb) hb
    rw [if_neg hab, if_pos hb] at hcount
    omega

/-- **`COWTraverse`**: the tag is not in the list, or the writer gets it before the first shared node, or the writer gets
it behind nodes that were copied. -/
theorem cowTraverse_cases (l : ι) (tid : ℕ) (writer : Tree ι → Bool → ℕ → ι ⊕ ℕ → Option (Tree ι × Tag)) :
    (s.cowTraverse l tid writer = some (s, none) ∧ ∀ w ∈ vals l, w.tid ≠ tid) ∨
      (∃ as a bs vs v ws, Cursor s path vals tid l as (a :: bs) vs (v :: ws) ∧ v.tid = tid ∧ s.count a = 1 ∧
        s.cowTraverse l tid writer = (writer s true a (lastLoc (.inl l) as)).map fun r => (r.1, some r.2)) ∨
      ((∃ as a bs vs v ws, Cursor s path vals tid l as (a :: bs) vs (v :: ws) ∧ 1 < s.count a) ∧
        ∃ s' path' as a bs vs v ws, s'.Inv path' vals ∧ Cursor s' path' vals tid l as (a :: bs) vs (v :: ws) ∧
          v.tid = tid ∧
          s.cowTraverse l tid writer = (writer s' false a (lastLoc (.inl l) as)).map fun r => (r.1, some r.2)) := by
  have hstart := Cursor.start s path vals tid l
  have hsearch := search_cases hs hstart (hstart.length_lt_fuel hs)
  rw [lastLoc] at hsearch
  rcases hsearch with ⟨heq, hnone⟩ | ⟨as, a, bs, vs, v, ws, h, ⟨heq, ha, hv⟩ | ⟨heq, ha⟩⟩
  · exact .inl ⟨by rw [Tree.cowTraverse, heq], hnone⟩
  · exact .inr (.inl ⟨as, a, bs, vs, v, ws, h, hv, ha, by rw [Tree.cowTraverse, heq]⟩)
  have hlookup : s.lookup tid s.fuel (lastLoc (.inl l) as) = (v :: ws).find? (·.tid = tid) := by
    have hsplit := hs.vals_split h.path h.vals h.length
    refine lookup_eq (hs.lastLoc_eq h.path) ?_ (h.length_lt_fuel hs)
    rw [List.map_cons, List.map_cons, hsplit.1, hsplit.2]
  by_cases hex : ∃ w ∈ v :: ws, w.tid = tid
  · refine .inr (.inr ⟨⟨as, a, bs, vs, v, ws, h, ha⟩, ?_⟩)
    have hlen := h.length_lt_fuel hs
    obtain ⟨s', path', as', a', bs', vs', v', ws', hun, hs', h', hv', ha'⟩ :=
      unshare_eq hs h ha hex (Nat.lt_of_succ_lt hlen)
    refine ⟨s', path', as', a', bs', vs', v', ws', hs', h', hv', ?_⟩
    have hsome : s.lookup tid s.fuel (lastLoc (.inl l) as) ≠ none := by
      rw [hlookup]
      intro hnone
      obtain ⟨w, hw, hwt⟩ := hex
      exact List.find?_eq_none.mp hnone w hw (by simpa using hwt)
    rw [Tree.cowTraverse, heq]
    simp only [if_neg hsome, hun, Option.bind_some, if_pos ha']
  · left
    push Not at hex
    have hnone : s.lookup tid s.fuel (lastLoc (.inl l) as) = none := by
      rw [hlookup, List.find?_eq_none]
      intro w hw
      simpa using hex w hw
    refine ⟨by rw [Tree.cowTraverse, heq]; simp only [if_pos hnone], ?_⟩
    intro w hw
    rw [h.vals] at hw
    rcases List.mem_append.mp hw with hw | hw
    · exact h.others w hw
    · exact hex w hw

end

theorem removeLoop_setNext (fuel : ℕ) (s : Tree ι) (l : ι) (v cur : Option ℕ) :
    Tree.removeLoop fuel (s.setNext (.inl l) v) cur = (Tree.removeLoop fuel s cur).setNext (.inl l) v := by
  induction fuel generalizing s cur with
  | zero => rfl
  | succ fuel ih =>
    cases cur with
    | none => rfl
    | some a =>
      have hfree : ((s.setNext (.inl l) v).dec a).free a = ((s.dec a).free a).setNext (.inl l) v := by
        simp only [free, setNext, dec]
        rw [update_comm Sum.inl_ne_inr]
      have hnext : (s.setNext (.inl l) v).next (.inr a) = s.next (.inr a) := by
        rw [next_setNext, update_of_ne Sum.inr_ne_inl]
      rw [Tree.removeLoop, Tree.removeLoop, hfree, hnext, ih]
      change (if (s.dec a).count a > 0 then (s.dec a).setNext (.inl l) v else _) = _
      split_ifs <;> rfl

theorem inv_removeLoop (hs : s.Inv path vals) (hfuel : (path l).length < fuel) :
    ((Tree.removeLoop fuel s (s.next (.inl l))).setNext (.inl l) none).Inv (update path l []) (update vals l []) := by
  induction fuel generalizing s path vals with
  | zero => omega
  | succ fuel ih =>
    have hstart := Cursor.start s path vals 0 l
    rcases hstart.cases hs with ⟨hnone, hpath, hvals⟩ | ⟨a, bs, v, ws, hnext, hpath, hvals, -, hpos⟩
    · rw [lastLoc] at hnone
      have hsame : s.setNext (.inl l) none = s := by rw [setNext, ← hnone, update_eq_self]
      rw [hnone, Tree.removeLoop]
      · rw [hsame, ← hpath, ← hvals, update_eq_self, update_eq_self]
        exact hs
      · simp
    · rw [lastLoc] at hnext
      rw [hnext, Tree.removeLoop, count_dec, if_pos rfl]
      by_cases ha : s.count a - 1 > 0
      · rw [if_pos ha]
        exact hs.release hpath
      · rw [if_neg ha]
        have hunlink := hs.unlink (hpath.trans (List.nil_append _).symm) (by simp) (by omega)
          (hvals.trans (List.nil_append _).symm) rfl
        have hfree : (s.setNext (.inl l) (s.next (.inr a))).free a =
            ((s.dec a).free a).setNext (.inl l) (s.next (.inr a)) := by
          simp only [free, setNext, dec, update_idem]
          rw [update_comm Sum.inl_ne_inr]
        rw [lastLoc, List.nil_append, List.nil_append, hfree] at hunlink
        have hlen : (update path l bs l).length < fuel := by
          rw [hpath] at hfuel
          simpa using hfuel
        have hrest := ih hunlink hlen
        rw [removeLoop_setNext, next_setNext, update_self, update_idem, update_idem] at hrest
        simpa only [setNext, update_idem] using hrest

theorem inv_removeAll (hs : s.Inv path vals) (l : ι) : (s.removeAll l).Inv (update path l []) (update vals l []) := by
  refine inv_removeLoop hs ?_
  exact (Cursor.start s path vals 0 l).length_lt_fuel hs

/-! ## Maps -/

def ofTags (vs : List Tag) (tid : ℕ) : Option (List UInt8) := (vs.find? (·.tid = tid)).map Tag.data

theorem find?_eq_none_of_others (h : ∀ w ∈ vs, w.tid ≠ tid) : vs.find? (·.tid = tid) = none := by
  rw [List.find?_eq_none]
  intro w hw
  simpa using h w hw

theorem ofTags_cons (w : Tag) (vs : List Tag) : ofTags (w :: vs) = update (ofTags vs) w.tid (some w.data) := by
  funext k
  by_cases hk : k = w.tid
  · simp [ofTags, hk]
  · simp [ofTags, update_of_ne hk, Ne.symm hk]

theorem ofTags_remove (hvs : ∀ w ∈ vs, w.tid ≠ v.tid) (hws : ∀ w ∈ ws, w.tid ≠ v.tid) :
    ofTags (vs ++ ws) = update (ofTags (vs ++ v :: ws)) v.tid none := by
  funext k
  by_cases hk : k = v.tid
  · subst hk
    simp [ofTags, find?_eq_none_of_others hvs, find?_eq_none_of_others hws]
  · simp [ofTags, update_of_ne hk, Ne.symm hk]

theorem ofTags_replace {w : Tag} (hw : w.tid = v.tid) (hvs : ∀ w ∈ vs, w.tid ≠ v.tid) :
    ofTags (vs ++ w :: ws) = update (ofTags (vs ++ v :: ws)) v.tid (some w.data) := by
  funext k
  by_cases hk : k = v.tid
  · subst hk
    simp [ofTags, find?_eq_none_of_others hvs, hw]
  · simp [ofTags, update_of_ne hk, hw, Ne.symm hk]

/-- The lists are in order, no list has a kind twice, and the maps are those of the lists. -/
def Rep (s : Tree ι) (m : Maps ι) : Prop :=
  ∃ path vals, s.Inv path vals ∧ (∀ l, ((vals l).map Tag.tid).Nodup) ∧ ∀ l, m l = ofTags (vals l)

variable {m : Maps ι} {f : ℕ → Option (List UInt8)}

theorem Rep.of_update {s' : Tree ι} {path' : ι → List ℕ} (hs' : s'.Inv path' (update vals l vs))
    (hnodup : ∀ l, ((vals l).map Tag.tid).Nodup) (hm : ∀ l, m l = ofTags (vals l)) (hvs : (vs.map Tag.tid).Nodup)
    (hf : ofTags vs = f) : Rep s' (update m l f) := by
  refine ⟨path', update vals l vs, hs', fun j => ?_, fun j => ?_⟩
  · by_cases hj : j = l
    · rwa [hj, update_self]
    · rw [update_of_ne hj]
      exact hnodup j
  · by_cases hj : j = l
    · rw [hj, update_self, update_self, hf]
    · rw [update_of_ne hj, update_of_ne hj, hm]

theorem Rep.removeAll (h : Rep s m) (l : ι) : Rep (s.removeAll l) (update m l fun _ => none) := by
  obtain ⟨path, vals, hs, hnodup, hm⟩ := h
  exact Rep.of_update (inv_removeAll hs l) hnodup hm List.nodup_nil rfl

theorem Rep.assign (h : Rep s m) (l o : ι) : Rep (s.assign l o) (update m l (m o)) := by
  obtain ⟨path, vals, hs, hnodup, hm⟩ := h
  rw [Tree.assign]
  by_cases heq : s.next (.inl l) = s.next (.inl o)
  · have hpath : path l = path o := (hs.hasPath l).unique ((hs.hasPath o).congr heq fun _ _ => rfl)
    have hvals : vals l = vals o := by
      have hl := hs.hasVals l
      rw [hpath, hs.hasVals o] at hl
      exact (List.map_injective_iff.mpr (Option.some_injective _) hl).symm
    rw [if_pos heq, hm o, ← hvals, ← hm l, update_eq_self]
    exact ⟨path, vals, hs, hnodup, hm⟩
  · rw [if_neg heq]
    have hne : o ≠ l := fun hol => heq (by rw [hol])
    have hshare := (inv_removeAll hs l).share (i := l) (update_self _ _ _) o
    rw [update_idem, update_idem, update_of_ne hne, update_of_ne hne] at hshare
    exact Rep.of_update hshare hnodup hm (hnodup o) (hm o).symm

theorem Rep.peek_eq (h : Rep s m) (l : ι) (tid : ℕ) : s.peek l tid = m l tid := by
  obtain ⟨path, vals, hs, -, hm⟩ := h
  rw [Tree.peek, lookup_start hs, hm, ofTags]

theorem Rep.add (h : Rep s m) (l : ι) {tag : Tag} (htag : m l tag.tid = none) :
    ∃ s', s.add l tag = some s' ∧ Rep s' (update m l (update (m l) tag.tid (some tag.data))) := by
  obtain ⟨path, vals, hs, hnodup, hm⟩ := h
  have hfind : (vals l).find? (·.tid = tag.tid) = none := by
    rw [hm, ofTags, Option.map_eq_none_iff] at htag
    exact htag
  have hnone : s.lookup tag.tid s.fuel (.inl l) = none := by rw [lookup_start hs, hfind]
  refine ⟨_, by rw [Tree.add, if_pos hnone], ?_⟩
  refine Rep.of_update (hs.push l tag) hnodup hm ?_ ?_
  · rw [List.map_cons, List.nodup_cons]
    refine ⟨fun hmem => ?_, hnodup l⟩
    obtain ⟨w, hw, hwt⟩ := List.mem_map.mp hmem
    exact List.find?_eq_none.mp hfind w hw (by simpa using hwt)
  · rw [ofTags_cons, hm]

theorem Rep.add_eq_none (h : Rep s m) (l : ι) {tag : Tag} (htag : m l tag.tid ≠ none) : s.add l tag = none := by
  have hpeek := h.peek_eq l tag.tid
  rw [Tree.add, if_neg]
  intro hnone
  rw [Tree.peek, hnone] at hpeek
  exact htag hpeek.symm

theorem Cursor.rest_ne (h : Cursor s path vals tid l as (a :: bs) vs (v :: ws))
    (hnodup : ((vals l).map Tag.tid).Nodup) : ∀ w ∈ ws, w.tid ≠ v.tid := by
  rw [h.vals, List.map_append, List.map_cons] at hnodup
  intro w hw hwv
  refine (List.nodup_cons.mp (List.nodup_append.mp hnodup).2.1).1 ?_
  rw [← hwv]
  exact List.mem_map_of_mem hw

/-- **`Remove`** takes the tag out of the map and returns it. -/
theorem Rep.remove (h : Rep s m) (l : ι) (tid : ℕ) :
    ∃ r, s.remove l tid = some r ∧ Rep r.1 (update m l (update (m l) tid none)) ∧ r.2.map Tag.data = m l tid := by
  obtain ⟨path, vals, hs, hnodup, hm⟩ := h
  rw [Tree.remove]
  rcases cowTraverse_cases hs l tid Tree.removeWriter with ⟨heq, hnone⟩ | ⟨as, a, bs, vs, v, ws, hc, rfl, ha, heq⟩ |
    ⟨-, s', path', as, a, bs, vs, v, ws, hs', hc, rfl, heq⟩
  · refine ⟨(s, none), heq, ?_, ?_⟩
    · have hmap : m l tid = none := by rw [hm, ofTags, find?_eq_none_of_others hnone, Option.map_none]
      rw [← hmap, update_eq_self, update_eq_self]
      exact ⟨path, vals, hs, hnodup, hm⟩
    · rw [hm, ofTags, find?_eq_none_of_others hnone]
  · have hval := (hs.vals_split hc.path hc.vals hc.length).1
    have hrest := hc.rest_ne (hnodup l)
    refine ⟨_, by rw [heq, Tree.removeWriter, hval]; rfl, ?_, ?_⟩
    · refine Rep.of_update (hs.unlink hc.path hc.own ha hc.vals hc.length) hnodup hm ?_ ?_
      · exact (hnodup l).sublist ((hc.vals ▸ (List.sublist_cons_self v ws).append_left vs).map _)
      · rw [hm, hc.vals, ofTags_remove hc.others hrest]
    · simp [hm, hc.vals, ofTags, find?_eq_none_of_others hc.others]
  · have hval := (hs'.vals_split hc.path hc.vals hc.length).1
    have hrest := hc.rest_ne (hnodup l)
    refine ⟨_, by rw [heq, Tree.removeWriter, hval]; rfl, ?_, ?_⟩
    · refine Rep.of_update (hs'.skip hc.path hc.own hc.vals hc.length) hnodup hm ?_ ?_
      · exact (hnodup l).sublist ((hc.vals ▸ (List.sublist_cons_self v ws).append_left vs).map _)
      · rw [hm, hc.vals, ofTags_remove hc.others hrest]
    · simp [hm, hc.vals, ofTags, find?_eq_none_of_others hc.others]

/-- A tag that is written over another has its size: that of a node before which, and with which, all nodes of the list
are counted once. -/
def Fits (s : Tree ι) : TagOp ι → Prop
  | .replace l tag => ∀ as a bs old, Path s.next (.inl l) (as ++ a :: bs) → (∀ b ∈ as ++ [a], s.count b = 1) →
    s.val a = some old → old.tid = tag.tid → old.data.length = tag.data.length
  | _ => True

theorem mem_vals_of_mem_path (hs : s.Inv path vals) {old : Tag} (ha : a ∈ path l) (hval : s.val a = some old) :
    old ∈ vals l := by
  have hmem : some old ∈ (path l).map s.val := hval ▸ List.mem_map_of_mem ha
  rw [hs.hasVals l] at hmem
  simpa using hmem

theorem fits_of_shared (hs : s.Inv path vals) {tag : Tag} (hc : Cursor s path vals tag.tid l as (a :: bs) vs (v :: ws))
    (ha : 1 < s.count a) : Fits s (.replace l tag) := by
  intro as' a' bs' old hp hown hval htid
  have hpath : as' ++ [a'] ++ bs' = as ++ a :: bs := by
    rw [List.append_assoc, List.singleton_append, ← hc.path]
    exact hp.unique (hs.hasPath l)
  have hnot : a ∉ as' ++ [a'] := by
    intro hmem
    exact absurd (hown a hmem) (by omega)
  have hbefore : a' ∈ as := by
    rcases List.append_eq_append_iff.mp hpath with ⟨cs, rfl, -⟩ | ⟨cs, hcs, hbs⟩
    · simp
    · cases cs with
      | nil =>
        rw [List.append_nil] at hcs
        rw [← hcs]
        simp
      | cons c cs =>
        obtain rfl := (List.cons.inj hbs).1
        exact absurd (by simp [hcs]) hnot
  have hmap : as.map s.val = vs.map some := by
    have hv := hs.hasVals l
    rw [hc.path, hc.vals, List.map_append, List.map_append] at hv
    exact (List.append_inj hv (by simpa using hc.length.symm)).1
  have hmem : some old ∈ as.map s.val := hval ▸ List.mem_map_of_mem hbefore
  rw [hmap] at hmem
  exact absurd htid (hc.others old (by simpa using hmem))

theorem length_serializeInto {buffer bytes data : List UInt8} (h : serializeInto buffer bytes = some data) :
    data.length = buffer.length := by
  rw [serializeInto] at h
  split_ifs at h with hle
  obtain rfl := Option.some.inj h
  rw [List.length_append, List.length_drop]
  omega

/-- `Replace` before the first shared node: the list then has the bytes that were written. -/
theorem replace_own (hs : s.Inv path vals) (hnodup : ∀ l, ((vals l).map Tag.tid).Nodup) (hm : ∀ l, m l = ofTags (vals l))
    {tag : Tag} (hc : Cursor s path vals tag.tid l as (a :: bs) vs (v :: ws)) (hv : v.tid = tag.tid) (ha : s.count a = 1)
    (data : List UInt8) :
    Rep (s.setVal a { v with data := data }) (update m l (update (m l) tag.tid (some data))) := by
  refine Rep.of_update (hs.setVal hc.path hc.own ha hc.vals hc.length { v with data := data }) hnodup hm ?_ ?_
  · have hold := hnodup l
    rw [hc.vals] at hold
    simpa using hold
  · rw [hm, hc.vals, ← hv]
    exact ofTags_replace (w := { v with data := data }) rfl (hv ▸ hc.others)

theorem fits_own_iff (hs : s.Inv path vals) (hnodup : ∀ l, ((vals l).map Tag.tid).Nodup) {tag : Tag}
    (hc : Cursor s path vals tag.tid l as (a :: bs) vs (v :: ws)) (hv : v.tid = tag.tid) (ha : s.count a = 1) :
    Fits s (.replace l tag) ↔ v.data.length = tag.data.length := by
  constructor
  · intro hfits
    refine hfits as a bs v (hc.path ▸ hs.hasPath l) ?_ (hs.vals_split hc.path hc.vals hc.length).1 hv
    intro b hb
    rcases List.mem_append.mp hb with hb | hb
    · exact hc.own b hb
    · rwa [List.mem_singleton.mp hb]
  · intro hlen as' a' bs' old hp _ hval htid
    have hmem : a' ∈ path l := (hp.unique (hs.hasPath l)) ▸ (by simp)
    have hold := mem_vals_of_mem_path hs hmem hval
    have hmemv : v ∈ vals l := by simp [hc.vals]
    rwa [List.inj_on_of_nodup_map (hnodup l) hold hmemv (htid.trans hv.symm)]

/-- **`Replace`** puts the tag into the map if it fits, and otherwise `Peek` does not give it. -/
theorem Rep.replace (h : Rep s m) (l : ι) (tag : Tag) :
    (Fits s (.replace l tag) ∧
        ∃ s', s.replace l tag = some s' ∧ Rep s' (update m l (update (m l) tag.tid (some tag.data)))) ∨
      (¬ Fits s (.replace l tag) ∧ ∀ s', s.replace l tag = some s' → s'.peek l tag.tid ≠ some tag.data) := by
  have hrep := h
  obtain ⟨path, vals, hs, hnodup, hm⟩ := h
  rw [Tree.replace]
  rcases cowTraverse_cases hs l tag.tid (Tree.replaceWriter tag) with
    ⟨heq, hnone⟩ | ⟨as, a, bs, vs, v, ws, hc, hv, ha, heq⟩ |
    ⟨⟨as', a', bs', vs', v', ws', hc', ha'⟩, s', path', as, a, bs, vs, v, ws, hs', hc, hv, heq⟩
  · refine .inl ⟨?_, ?_⟩
    · intro as a bs old hp _ hval htid
      have hmem : a ∈ path l := (hp.unique (hs.hasPath l)) ▸ (by simp)
      exact absurd htid (hnone old (mem_vals_of_mem_path hs hmem hval))
    · rw [heq]
      refine hrep.add l ?_
      rw [hm, ofTags, find?_eq_none_of_others hnone, Option.map_none]
  · have hval := (hs.vals_split hc.path hc.vals hc.length).1
    rw [fits_own_iff hs hnodup hc hv ha, heq, Tree.replaceWriter, if_pos rfl, hval, Option.bind_some]
    by_cases hlen : v.data.length = tag.data.length
    · refine .inl ⟨hlen, s.setVal a { v with data := tag.data }, ?_, replace_own hs hnodup hm hc hv ha tag.data⟩
      have hserialize : serializeInto v.data tag.data = some tag.data := by
        rw [serializeInto, if_pos hlen.ge, ← hlen, List.drop_length, List.append_nil]
      rw [hserialize]
      rfl
    · refine .inr ⟨hlen, fun s' hs' hpeek => hlen ?_⟩
      cases hserialize : serializeInto v.data tag.data with
      | none => simp [hserialize] at hs'
      | some data =>
        have hwritten : s.setVal a { v with data := data } = s' := by simpa [hserialize] using hs'
        have hdata := (replace_own hs hnodup hm hc hv ha data).peek_eq l tag.tid
        rw [hwritten, hpeek, update_self, update_self] at hdata
        rw [Option.some.inj hdata, length_serializeInto hserialize]
  · refine .inl ⟨fits_of_shared hs hc' ha', _, by rw [heq]; rfl, ?_⟩
    have hcopy := hs'.copy hc.path hc.own hc.vals hc.length tag
    refine Rep.of_update hcopy hnodup hm ?_ ?_
    · have hold := hnodup l
      rw [hc.vals] at hold
      simpa [hv] using hold
    · rw [hm, hc.vals, ← hv, ofTags_replace hv.symm (hv ▸ hc.others)]

/-! ## Runs -/

/-- `Peek` gives what is in the maps, and each node counts the heads of lists and the nodes that point at it. -/
structure Agrees (s : Tree ι) (m : Maps ι) : Prop where
  peek : ∀ l tid, s.peek l tid = m l tid
  count : ∀ a node, s.node a = some node → node.count = refs s.next s.fresh a

/-- Both calls are errors, or both return and agree. -/
def Agree : Option (Tree ι) → Option (Maps ι) → Prop
  | some s, some m => Agrees s m
  | none, none => True
  | _, _ => False

theorem Rep.agrees (h : Rep s m) : Agrees s m where
  peek := h.peek_eq
  count a node hnode := by
    obtain ⟨path, vals, hs, -, -⟩ := h
    rw [← hs.count a, count, hnode]
    rfl

/-- **A call that fits** keeps the lists and the maps together. -/
theorem rep_step (h : Rep s m) {op : TagOp ι} (hfits : Fits s op) :
    (s.step op = none ∧ m.step op = none) ∨ ∃ s' m', s.step op = some s' ∧ m.step op = some m' ∧ Rep s' m' := by
  cases op with
  | add l tag =>
    by_cases htag : m l tag.tid = none
    · obtain ⟨s', hs', hrep⟩ := h.add l htag
      exact .inr ⟨s', _, hs', if_pos htag, hrep⟩
    · exact .inl ⟨h.add_eq_none l htag, if_neg htag⟩
  | remove l tid =>
    obtain ⟨r, hr, hrep, -⟩ := h.remove l tid
    exact .inr ⟨r.1, _, by rw [Tree.step, hr, Option.map_some], rfl, hrep⟩
  | replace l tag =>
    rcases h.replace l tag with ⟨-, s', hs', hrep⟩ | ⟨hnot, -⟩
    · exact .inr ⟨s', _, hs', rfl, hrep⟩
    · exact absurd hfits hnot
  | removeAll l => exact .inr ⟨_, _, rfl, rfl, h.removeAll l⟩
  | assign l o => exact .inr ⟨_, _, rfl, rfl, h.assign l o⟩

theorem fits_of_agree (h : Rep s m) {op : TagOp ι} (hagree : Agree (s.step op) (m.step op)) : Fits s op := by
  cases op with
  | replace l tag =>
    rcases h.replace l tag with ⟨hfits, -⟩ | ⟨-, hnot⟩
    · exact hfits
    · cases hs' : s.replace l tag with
      | none =>
        rw [Tree.step, hs', Maps.step] at hagree
        exact hagree.elim
      | some s' =>
        rw [Tree.step, hs', Maps.step] at hagree
        refine absurd ?_ (hnot s' hs')
        rw [hagree.peek, update_self, update_self]
  | _ => trivial

theorem tree_run_concat (ops : List (TagOp ι)) (op : TagOp ι) :
    Tree.run (ops ++ [op]) = (Tree.run ops).bind (·.step op) := by
  rw [Tree.run, List.foldlM_append]
  simp [Tree.run]

theorem maps_run_concat (ops : List (TagOp ι)) (op : TagOp ι) :
    Maps.run (ops ++ [op]) = (Maps.run ops).bind (·.step op) := by
  rw [Maps.run, List.foldlM_append]
  simp [Maps.run]

/-- What holds after a run of calls that fit. -/
def RepRun (ops : List (TagOp ι)) : Prop :=
  (Tree.run ops = none ∧ Maps.run ops = none) ∨ ∃ s m, Tree.run ops = some s ∧ Maps.run ops = some m ∧ Rep s m

theorem rep_init : Rep ({} : Tree ι) fun _ _ => none := by
  refine ⟨fun _ => [], fun _ => [], ⟨⟨?_, ?_, ?_, ?_⟩, fun _ => rfl, fun _ => rfl⟩, fun _ => List.nodup_nil, fun _ => rfl⟩
  · intro a
    simp [count, refs]
  · simp
  · simp
  · intro a _
    rfl

theorem RepRun.agree {ops : List (TagOp ι)} (h : RepRun ops) : Agree (Tree.run ops) (Maps.run ops) := by
  rcases h with ⟨hs, hm⟩ | ⟨s, m, hs, hm, hrep⟩
  · rw [hs, hm]
    trivial
  · rw [hs, hm]
    exact hrep.agrees

/-- **Lists of tags are independent maps**: they agree with their maps all along a run, from empty lists, exactly when
all tags of the run fit. -/
theorem run_agree_iff (ops : List (TagOp ι)) :
    (∀ l, l <+: ops → Agree (Tree.run l) (Maps.run l)) ↔
      ∀ i : Fin ops.length, ∀ s, Tree.run (ops.take i) = some s → Fits s (ops.get i) := by
  rw [← RunLib.forall_step_iff_forall_fin (Q := fun l op => ∀ s, Tree.run l = some s → Fits s op)]
  refine RunLib.forall_prefix_iff_of_inv (R := RepRun) ?_ (fun l => RepRun.agree) ?_ ?_ ops
  · exact .inr ⟨_, _, rfl, rfl, rep_init⟩
  · rintro l op (⟨hs, hm⟩ | ⟨s, m, hs, hm, hrep⟩) hfits
    · refine .inl ?_
      rw [tree_run_concat, maps_run_concat, hs, hm]
      exact ⟨rfl, rfl⟩
    · rw [RepRun, tree_run_concat, maps_run_concat, hs, hm]
      exact rep_step hrep (hfits s hs)
  · rintro l op (⟨hs, hm⟩ | ⟨s, m, hs, hm, hrep⟩) hagree s' hs'
    · simp [hs] at hs'
    · obtain rfl := Option.some.inj (hs.symm.trans hs')
      rw [tree_run_concat, maps_run_concat, hs, hm] at hagree
      exact fits_of_agree hrep hagree

end Walks

/-- A tag of two bytes, and then one of one byte in its place. -/
def shorterTag : List (TagOp Unit) := [.add () ⟨1, [7, 8]⟩, .replace () ⟨1, [9]⟩]

/-- A tag of one byte, and then one of two bytes in its place. -/
def longerTag : List (TagOp Unit) := [.add () ⟨1, [7]⟩, .replace () ⟨1, [8, 9]⟩]

/-- **A byte of the old tag is left** after a shorter one, and a longer one does not fit. -/
theorem not_run_agree :
    ((Tree.run shorterTag).map (·.peek () 1) = some (some [9, 8]) ∧
      (Maps.run shorterTag).map (· () 1) = some (some [9]) ∧ ¬ Agree (Tree.run shorterTag) (Maps.run shorterTag)) ∧
    (Tree.run longerTag).isNone ∧ ¬ Agree (Tree.run longerTag) (Maps.run longerTag) := by
  have hpeek : (Tree.run shorterTag).map (·.peek () 1) = some (some [9, 8]) := by decide
  have hmap : (Maps.run shorterTag).map (· () 1) = some (some [9]) := by decide
  have hnone : (Tree.run longerTag).isNone := by decide
  have hsome : (Maps.run longerTag).isSome := by decide
  refine ⟨⟨hpeek, hmap, fun hagree => ?_⟩, hnone, fun hagree => ?_⟩
  · obtain ⟨s, hs, hpeek⟩ := Option.map_eq_some_iff.mp hpeek
    obtain ⟨m, hm, hmap⟩ := Option.map_eq_some_iff.mp hmap
    rw [hs, hm] at hagree
    have heq := hagree.peek () 1
    rw [hpeek, hmap] at heq
    exact absurd heq (by decide)
  · obtain ⟨m, hm⟩ := Option.isSome_iff_exists.mp hsome
    rw [Option.isNone_iff_eq_none.mp hnone, hm] at hagree
    exact hagree

end Ns3Ndn.PacketTagList
