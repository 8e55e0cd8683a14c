import Ns3Ndn.Lib.Chain
import Ns3Ndn.Name

/-!
# The hashtable of the name tree

`NFD/daemon/table/name-tree-hashtable.cpp`. A node is in the bucket given by its hash value, and the nodes of
a bucket form a doubly linked list. Nodes are cells of a heap, and an operation fails where the code would break
an assertion or follow a null pointer, or where a loop over a bucket does not come to an end.

The hash function is arbitrary. The load factors and the factors of expansion and shrinking are floating
point numbers in the code, and enter only through the products with the number of buckets, truncated: the
options have these products as functions.

* `Linked`: the buckets are doubly linked lists of the nodes with their hash values;
* **`run_isFiniteMap`**: along every run the table is a finite map from names to nodes.
-/

namespace Ns3Ndn

open ChainLib

section Hash

variable (hashFunc : Component → ℕ) (name : Name) (prefixLen : ℕ)

def computeHash : ℕ := (name.take prefixLen).foldl (fun h comp => h ^^^ hashFunc comp) 0

def computeHashes : List ℕ := (name.take prefixLen).scanl (fun h comp => h ^^^ hashFunc comp) 0

end Hash

/-! ## The table -/

structure HtNode where
  hash : ℕ
  name : Name
deriving DecidableEq

/-- `HashtableOptions`, with the truncated products of the factors with a number of buckets. -/
structure HashtableOptions where
  initialSize : ℕ
  minSize : ℕ
  /-- `static_cast<size_t>(expandLoadFactor * nBuckets)`, and so on. -/
  expandLoad : ℕ → ℕ
  expandSize : ℕ → ℕ
  shrinkLoad : ℕ → ℕ
  shrinkSize : ℕ → ℕ

/-- The assertions of the constructor. As `expandFactor > 1`, a table is never expanded to fewer
buckets. -/
structure HashtableOptions.Valid (O : HashtableOptions) : Prop where
  minSize_pos : 0 < O.minSize
  minSize_le : O.minSize ≤ O.initialSize
  le_expandSize : ∀ n, n ≤ O.expandSize n

def HashtableOptions.ofFactors (initialSize minSize : ℕ)
    (expandLoadFactor expandFactor shrinkLoadFactor shrinkFactor : ℚ) : HashtableOptions where
  initialSize
  minSize
  expandLoad n := ⌊expandLoadFactor * n⌋₊
  expandSize n := ⌊expandFactor * n⌋₊
  shrinkLoad n := ⌊shrinkLoadFactor * n⌋₊
  shrinkSize n := ⌊shrinkFactor * n⌋₊

theorem HashtableOptions.valid_ofFactors {initialSize minSize : ℕ} (hpos : 0 < minSize)
    (hle : minSize ≤ initialSize) {expandFactor : ℚ} (hexpand : 1 < expandFactor)
    (expandLoadFactor shrinkLoadFactor shrinkFactor : ℚ) :
    (ofFactors initialSize minSize expandLoadFactor expandFactor shrinkLoadFactor shrinkFactor).Valid := by
  refine ⟨hpos, hle, fun n => Nat.le_floor ?_⟩
  have hn : (0 : ℚ) ≤ n := Nat.cast_nonneg n
  nlinarith

structure Hashtable where
  heap : Heap HtNode := fun _ => none
  /-- The address of the next node. -/
  nextNode : ℕ := 0
  buckets : List (Option ℕ)
  size : ℕ := 0
  expandThreshold : ℕ := 0
  shrinkThreshold : ℕ := 0

namespace Hashtable

section Operations

variable (O : HashtableOptions) (ht : Hashtable)

def getNBuckets : ℕ := ht.buckets.length

def computeBucketIndex (h : ℕ) : ℕ := h % ht.getNBuckets

def computeThresholds : Hashtable :=
  { ht with
    expandThreshold := O.expandLoad ht.getNBuckets
    shrinkThreshold := O.shrinkLoad ht.getNBuckets }

/-- The constructor. -/
def ofOptions : Hashtable :=
  ({ buckets := List.replicate O.initialSize none } : Hashtable).computeThresholds O

def attach (bucket node : ℕ) : Option Hashtable := do
  let heap ← push ht.heap (ht.buckets.getD bucket none) node
  some { ht with heap, buckets := ht.buckets.set bucket (some node) }

def detach (bucket node : ℕ) : Option Hashtable := do
  let (heap, head) ← unlink ht.heap (ht.buckets.getD bucket none) node
  some { ht with heap, buckets := ht.buckets.set bucket head }

/-- The loop of `resize` over the nodes of an old bucket. The next node is read before a node is moved. -/
def relink (ht : Hashtable) : (fuel : ℕ) → (node : Option ℕ) → Option Hashtable
  | _, none => some ht
  | 0, some _ => none
  | fuel + 1, some node => do
    let c ← ht.heap node
    let ht ← ht.attach (ht.computeBucketIndex c.val.hash) node
    relink ht fuel c.next

def resize (newNBuckets : ℕ) : Option Hashtable :=
  if ht.getNBuckets = newNBuckets then some ht
  else do
    let new ← ht.buckets.foldlM (fun new head => new.relink ht.nextNode head)
      { ht with buckets := List.replicate newNBuckets none }
    some (new.computeThresholds O)

/-- The loop of `findOrInsert` over the nodes of a bucket. -/
def search (heap : Heap HtNode) (h : ℕ) (name : Name) :
    (fuel : ℕ) → (node : Option ℕ) → Option (Option ℕ)
  | _, none => some none
  | 0, some _ => none
  | fuel + 1, some node => do
    let c ← heap node
    if c.val.hash = h ∧ name = c.val.name then some (some node) else search heap h name fuel c.next

def insertNode (name : Name) (h : ℕ) : Option (Hashtable × ℕ) := do
  let node := ht.nextNode
  let ht := { ht with
    heap := Function.update ht.heap node (some { val := ⟨h, name⟩ })
    nextNode := ht.nextNode + 1 }
  let ht ← ht.attach (ht.computeBucketIndex h) node
  let ht := { ht with size := ht.size + 1 }
  let ht ← if ht.expandThreshold < ht.size then ht.resize O (O.expandSize ht.getNBuckets) else some ht
  some (ht, node)

/-- `findOrInsert`: the table, the node, and whether it is new. -/
def findOrInsert (name : Name) (prefixLen h : ℕ) (allowInsert : Bool) :
    Option (Hashtable × Option ℕ × Bool) := do
  let found ← search ht.heap h (name.take prefixLen) ht.nextNode
    (ht.buckets.getD (ht.computeBucketIndex h) none)
  match found with
  | some node => some (ht, some node, false)
  | none =>
    if allowInsert then do
      let (ht, node) ← ht.insertNode O (name.take prefixLen) h
      some (ht, some node, true)
    else some (ht, none, false)

variable (hash : Name → ℕ)

def find (name : Name) (prefixLen : ℕ) : Option (Option ℕ) := do
  let (_, node, _) ← ht.findOrInsert O name prefixLen (hash (name.take prefixLen)) false
  some node

def insert (name : Name) (prefixLen : ℕ) : Option (Hashtable × Option ℕ × Bool) :=
  ht.findOrInsert O name prefixLen (hash (name.take prefixLen)) true

def erase (node : ℕ) : Option Hashtable := do
  let c ← ht.heap node
  let ht ← ht.detach (ht.computeBucketIndex c.val.hash) node
  -- `delete node`: its links were set to null just before
  let ht := { ht with heap := Function.update ht.heap node none, size := ht.size - 1 }
  if ht.size < ht.shrinkThreshold then ht.resize O (max O.minSize (O.shrinkSize ht.getNBuckets))
  else some ht

end Operations

/-! ## Buckets -/

variable {ht ht' : Hashtable} {D : ℕ → Prop}

/-- The bucket `i` is the doubly linked list `L i` of those nodes in `D` whose hash values lead to it. -/
def Lists (ht : Hashtable) (D : ℕ → Prop) (L : ℕ → List ℕ) : Prop :=
  ∀ i < ht.getNBuckets,
    Chain ht.heap (ht.buckets.getD i none) (L i) ∧ (L i).Nodup ∧
      ∀ a, a ∈ L i ↔ D a ∧ ∃ c, ht.heap a = some c ∧ ht.computeBucketIndex c.val.hash = i

/-- **Each bucket is a doubly linked list** of the nodes in `D` that belong to it. -/
def Linked (ht : Hashtable) (D : ℕ → Prop) : Prop := ∃ L, ht.Lists D L

/-- Only the nodes in `D` matter. -/
theorem Linked.frame (h : ht.Linked D) (hbuckets : ht'.buckets = ht.buckets) {D' : ℕ → Prop}
    (hD : ∀ a, (ht'.heap a).isSome → D' a → D a) (hD' : ∀ a, D a → (ht.heap a).isSome → D' a)
    (hheap : ∀ a, D a → ht'.heap a = ht.heap a) : ht'.Linked D' := by
  obtain ⟨L, hL⟩ := h
  have hindex : ∀ h, ht'.computeBucketIndex h = ht.computeBucketIndex h := fun h => by
    rw [computeBucketIndex, getNBuckets, hbuckets]
    rfl
  refine ⟨L, fun i hi => ?_⟩
  rw [getNBuckets, hbuckets] at hi
  obtain ⟨hchain, hnodup, hmem⟩ := hL i hi
  rw [hbuckets]
  refine ⟨hchain.frame fun a ha => hheap a ((hmem a).mp ha).1, hnodup, fun a => ?_⟩
  simp only [hindex]
  rw [hmem]
  constructor
  · rintro ⟨ha, c, hc, hi⟩
    exact ⟨hD' a ha (by rw [hc]; rfl), c, (hheap a ha).trans hc, hi⟩
  · rintro ⟨ha, c, hc, hi⟩
    have ha := hD a (by rw [hc]; rfl) ha
    exact ⟨ha, c, (hheap a ha).symm.trans hc, hi⟩

theorem computeBucketIndex_lt (ht : Hashtable) (h : ℕ) (hpos : 0 < ht.getNBuckets) :
    ht.computeBucketIndex h < ht.getNBuckets := Nat.mod_lt h hpos

theorem exists_cell_iff {h h' : Heap HtNode} {a : ℕ} (hval : (h' a).map Cell.val = (h a).map Cell.val)
    (P : HtNode → Prop) : (∃ c, h' a = some c ∧ P c.val) ↔ ∃ c, h a = some c ∧ P c.val := by
  have hmap : ∀ h : Heap HtNode,
      (∃ c, h a = some c ∧ P c.val) ↔ ∃ v, (h a).map Cell.val = some v ∧ P v := by
    intro h
    cases h a <;> simp
  rw [hmap, hmap, hval]

theorem getD_set_self {l : List (Option ℕ)} {i : ℕ} (hi : i < l.length) (x : Option ℕ) :
    (l.set i x).getD i none = x := by
  simp [List.getD_eq_getElem?_getD, hi]

theorem getD_set_of_ne {l : List (Option ℕ)} {i j : ℕ} (hij : i ≠ j) (x : Option ℕ) :
    (l.set i x).getD j none = l.getD j none := by
  simp [List.getD_eq_getElem?_getD, List.getElem?_set_ne hij]

/-- **One bucket gets another list**, of nodes whose hash values lead to it. -/
theorem Lists.set {L : ℕ → List ℕ} (hL : ht.Lists D L) {i₀ : ℕ} {heap' : Heap HtNode}
    {head : Option ℕ} {l : List ℕ} {D' : ℕ → Prop} (hchain : Chain heap' head l) (hnodup : l.Nodup)
    (hmem : ∀ a, a ∈ l ↔ D' a ∧ ∃ c, ht.heap a = some c ∧ ht.computeBucketIndex c.val.hash = i₀)
    (hD : ∀ {a c}, ht.heap a = some c → ht.computeBucketIndex c.val.hash ≠ i₀ →
      heap' a = ht.heap a ∧ (D' a ↔ D a))
    (hval : ∀ x, (heap' x).map Cell.val = (ht.heap x).map Cell.val) :
    ({ ht with heap := heap', buckets := ht.buckets.set i₀ head } : Hashtable).Lists D'
      (Function.update L i₀ l) := by
  intro i hi
  rw [getNBuckets, List.length_set] at hi
  have hindex : ∀ h, ({ ht with heap := heap', buckets := ht.buckets.set i₀ head } :
      Hashtable).computeBucketIndex h = ht.computeBucketIndex h := fun h => by
    rw [computeBucketIndex, getNBuckets, List.length_set]
    rfl
  have hcell : ∀ a, (∃ c, heap' a = some c ∧ ht.computeBucketIndex c.val.hash = i) ↔
      ∃ c, ht.heap a = some c ∧ ht.computeBucketIndex c.val.hash = i := fun a =>
    exists_cell_iff (hval a) fun v => ht.computeBucketIndex v.hash = i
  simp only [hindex, hcell]
  by_cases hii₀ : i = i₀
  · subst hii₀
    rw [getD_set_self hi, Function.update_self]
    exact ⟨hchain, hnodup, hmem⟩
  · obtain ⟨hchain', hnodup', hmem'⟩ := hL i hi
    rw [getD_set_of_ne (Ne.symm hii₀), Function.update_of_ne hii₀]
    refine ⟨hchain'.frame fun a ha => ?_, hnodup', fun a => ?_⟩
    · obtain ⟨-, c, hc, hci⟩ := (hmem' a).mp ha
      exact (hD hc (hci.symm ▸ hii₀)).1
    · rw [hmem']
      refine and_congr_left ?_
      rintro ⟨c, hc, hci⟩
      exact (hD hc (hci.symm ▸ hii₀)).2.symm

variable {node : ℕ} {c : Cell HtNode}

/-- **A node that is in no bucket is attached to the bucket of its hash value.** -/
theorem Linked.attach (h : ht.Linked D) (hpos : 0 < ht.getNBuckets)
    (hc : ht.heap node = some c) (hnode : ¬ D node) :
    ∃ ht', ht.attach (ht.computeBucketIndex c.val.hash) node = some ht' ∧
      ht'.Linked (fun a => D a ∨ a = node) ∧ ht'.getNBuckets = ht.getNBuckets ∧
      ht' = { ht with heap := ht'.heap, buckets := ht'.buckets } ∧
      (∀ x, ¬ D x → x ≠ node → ht'.heap x = ht.heap x) ∧
      ∀ x, (ht'.heap x).map Cell.val = (ht.heap x).map Cell.val := by
  obtain ⟨L, hL⟩ := h
  generalize hi₀ : ht.computeBucketIndex c.val.hash = i₀
  obtain ⟨hchain, hnodup, hmem⟩ := hL i₀ (hi₀ ▸ ht.computeBucketIndex_lt _ hpos)
  have hnotin : node ∉ L i₀ := fun hin => hnode ((hmem node).mp hin).1
  obtain ⟨heap', hpush, hchain', hframe, hval⟩ := push_spec hchain hnodup hnotin hc
  refine ⟨{ ht with heap := heap', buckets := ht.buckets.set i₀ (some node) }, ?_,
    ⟨_, Lists.set hL hchain' (List.nodup_cons.mpr ⟨hnotin, hnodup⟩) (fun a => ?_) (fun {a d} hd hdi => ?_)
      hval⟩, ?_, rfl, fun x hx hne => ?_, hval⟩
  · unfold Hashtable.attach
    rw [hpush]
    rfl
  · rw [List.mem_cons, hmem]
    constructor
    · rintro (rfl | ⟨hDa, hcell⟩)
      · exact ⟨Or.inr rfl, c, hc, hi₀⟩
      · exact ⟨Or.inl hDa, hcell⟩
    · rintro ⟨hDa | rfl, hcell⟩
      · exact Or.inr ⟨hDa, hcell⟩
      · exact Or.inl rfl
  · have hne : a ≠ node := by
      rintro rfl
      rw [hc, Option.some_inj] at hd
      exact hdi (hd ▸ hi₀)
    refine ⟨hframe a fun ha => ?_, or_iff_left hne⟩
    obtain ⟨-, d', hd', hdi'⟩ := (hmem a).mp ((List.mem_cons.mp ha).resolve_left hne)
    rw [hd, Option.some_inj] at hd'
    exact hdi (hd' ▸ hdi')
  · rw [getNBuckets, List.length_set]
    rfl
  · refine hframe x fun hmem' => ?_
    exact hx ((hmem x).mp ((List.mem_cons.mp hmem').resolve_left hne)).1

/-- **A node is detached from its bucket.** -/
theorem Linked.detach (h : ht.Linked D) (hpos : 0 < ht.getNBuckets)
    (hc : ht.heap node = some c) (hnode : D node) :
    ∃ ht', ht.detach (ht.computeBucketIndex c.val.hash) node = some ht' ∧
      ht'.Linked (fun a => D a ∧ a ≠ node) ∧ ht'.getNBuckets = ht.getNBuckets ∧
      ht' = { ht with heap := ht'.heap, buckets := ht'.buckets } ∧
      ∀ x, (ht'.heap x).map Cell.val = (ht.heap x).map Cell.val := by
  obtain ⟨L, hL⟩ := h
  generalize hi₀ : ht.computeBucketIndex c.val.hash = i₀
  obtain ⟨hchain, hnodup, hmem⟩ := hL i₀ (hi₀ ▸ ht.computeBucketIndex_lt _ hpos)
  obtain ⟨l₁, l₂, hl⟩ := List.append_of_mem ((hmem node).mpr ⟨hnode, c, hc, hi₀⟩)
  rw [hl] at hchain hnodup
  obtain ⟨heap', head, hunlink, hchain', hframe, hval⟩ := unlink_spec hchain hnodup
  have hnodup' : (l₁ ++ l₂).Nodup :=
    hnodup.sublist ((List.sublist_cons_self node l₂).append_left l₁)
  have hnotin : node ∉ l₁ ++ l₂ := (List.nodup_middle.mp hnodup).notMem
  refine ⟨{ ht with heap := heap', buckets := ht.buckets.set i₀ head }, ?_,
    ⟨_, Lists.set hL hchain' hnodup' (fun a => ?_) (fun {a d} hd hdi => ?_) hval⟩, ?_, rfl, hval⟩
  · unfold Hashtable.detach
    rw [hunlink]
    rfl
  · have hmem' : a ∈ L i₀ ↔ a = node ∨ a ∈ l₁ ++ l₂ := by
      rw [hl]
      simp only [List.mem_append, List.mem_cons]
      tauto
    have hiff := hmem a
    rw [hmem'] at hiff
    constructor
    · intro ha
      obtain ⟨hDa, hcell⟩ := hiff.mp (Or.inr ha)
      exact ⟨⟨hDa, ne_of_mem_of_not_mem ha hnotin⟩, hcell⟩
    · rintro ⟨⟨hDa, hne⟩, hcell⟩
      exact (hiff.mpr ⟨hDa, hcell⟩).resolve_left hne
  · have hne : a ≠ node := by
      rintro rfl
      rw [hc, Option.some_inj] at hd
      exact hdi (hd ▸ hi₀)
    refine ⟨hframe a fun ha => ?_, and_iff_left hne⟩
    obtain ⟨-, d', hd', hdi'⟩ := (hmem a).mp (hl ▸ ha)
    rw [hd, Option.some_inj] at hd'
    exact hdi (hd' ▸ hdi')
  · rw [getNBuckets, List.length_set]
    rfl

/-- **The search goes through the whole bucket.** -/
theorem search_spec {heap : Heap HtNode} {p : Option ℕ} {l : List ℕ} (h : Links heap p l) {fuel : ℕ}
    (hfuel : l.length ≤ fuel) (hv : ℕ) (name : Name) :
    search heap hv name fuel p = some (l.find? fun a =>
      (heap a).any fun c => c.val.hash = hv ∧ name = c.val.name) := by
  induction l generalizing p fuel with
  | nil =>
    obtain rfl : p = none := h
    rw [search]
    rfl
  | cons a l ih =>
    obtain ⟨rfl, c, hc, hrest⟩ := h
    obtain ⟨fuel, rfl⟩ := Nat.exists_eq_add_one.mpr (lt_of_lt_of_le (Nat.succ_pos _) hfuel)
    rw [search, hc, List.find?_cons, hc]
    change (if _ then _ else _) = _
    by_cases hmatch : c.val.hash = hv ∧ name = c.val.name
    · simp [hmatch]
    · rw [if_neg hmatch, ih hrest (Nat.le_of_succ_le_succ hfuel), Option.any_some,
        decide_eq_false hmatch]

/-! ## Resizing -/

/-- The state of `resize` when the nodes of `D` have been moved: they are linked in the new buckets, and the
other nodes are as they were. -/
structure Moved (ht : Hashtable) (n : ℕ) (D : ℕ → Prop) (new : Hashtable) : Prop where
  linked : new.Linked D
  nBuckets : new.getNBuckets = n
  same : new = { ht with heap := new.heap, buckets := new.buckets }
  frame : ∀ x, ¬ D x → new.heap x = ht.heap x
  val : ∀ x, (new.heap x).map Cell.val = (ht.heap x).map Cell.val

variable {n : ℕ} {new : Hashtable}

theorem Moved.attach (hn : 0 < n) (h : Moved ht n D new)
    (hc : ht.heap node = some c) (hnode : ¬ D node) :
    ∃ new', new.attach (new.computeBucketIndex c.val.hash) node = some new' ∧
      Moved ht n (fun a => D a ∨ a = node) new' := by
  have hc' : new.heap node = some c := (h.frame node hnode).trans hc
  obtain ⟨new', heq, hlinked, hn', hsame, hframe, hval⟩ :=
    h.linked.attach (h.nBuckets.symm ▸ hn) hc' hnode
  refine ⟨new', heq, hlinked, hn'.trans h.nBuckets, ?_, fun x hx => ?_, fun x => (hval x).trans (h.val x)⟩
  · rw [hsame, h.same]
  · rw [not_or] at hx
    rw [hframe x hx.1 hx.2, h.frame x hx.1]

/-- **The nodes of an old bucket are moved**, though their links change on the way. -/
theorem Moved.relink (hn : 0 < n) (h : Moved ht n D new) {p : Option ℕ}
    {l : List ℕ} (hl : Links ht.heap p l) (hnodup : l.Nodup) (hD : ∀ a ∈ l, ¬ D a) {fuel : ℕ}
    (hfuel : l.length ≤ fuel) :
    ∃ new', new.relink fuel p = some new' ∧ Moved ht n (fun a => D a ∨ a ∈ l) new' := by
  induction l generalizing p fuel new D with
  | nil =>
    obtain rfl : p = none := hl
    refine ⟨new, by rw [Hashtable.relink], ?_⟩
    simpa using h
  | cons a l ih =>
    obtain ⟨rfl, c, hc, hrest⟩ := hl
    obtain ⟨fuel, rfl⟩ := Nat.exists_eq_add_one.mpr (lt_of_lt_of_le (Nat.succ_pos _) hfuel)
    obtain ⟨ha, hnodup⟩ := List.nodup_cons.mp hnodup
    have hDa := hD a List.mem_cons_self
    have hc' : new.heap a = some c := (h.frame a hDa).trans hc
    obtain ⟨new₁, heq₁, hmoved₁⟩ := h.attach hn hc hDa
    have hD₁ : ∀ x ∈ l, ¬ (D x ∨ x = a) := fun x hx => not_or.mpr
      ⟨hD x (List.mem_cons_of_mem _ hx), ne_of_mem_of_not_mem hx ha⟩
    obtain ⟨new', heq, hmoved⟩ := ih hmoved₁ hrest hnodup hD₁ (Nat.le_of_succ_le_succ hfuel)
    refine ⟨new', ?_, ?_⟩
    · rw [Hashtable.relink, hc']
      change (do let ht ← new.attach (new.computeBucketIndex c.val.hash) a; _) = _
      rw [heq₁]
      exact heq
    · have hiff : (fun x => D x ∨ x ∈ a :: l) = fun x => (D x ∨ x = a) ∨ x ∈ l := by
        funext x
        rw [List.mem_cons, or_assoc]
      rw [hiff]
      exact hmoved

theorem Moved.foldlM_relink (hn : 0 < n) {fuel : ℕ} {buckets : List (Option ℕ)}
    {Ls : List (List ℕ)} (hLs : List.Forall₂ (fun p l => Links ht.heap p l ∧ l.length ≤ fuel) buckets Ls)
    (hnodup : Ls.flatten.Nodup) (h : Moved ht n D new)
    (hD : ∀ a ∈ Ls.flatten, ¬ D a) :
    ∃ new', buckets.foldlM (fun new head => new.relink fuel head) new = some new' ∧
      Moved ht n (fun a => D a ∨ a ∈ Ls.flatten) new' := by
  induction hLs generalizing new D with
  | nil => exact ⟨new, rfl, by simpa using h⟩
  | @cons p l buckets Ls hl _ ih =>
    rw [List.flatten_cons] at hnodup hD ⊢
    obtain ⟨hnodup₁, hnodup₂, hdisj⟩ := List.nodup_append'.mp hnodup
    obtain ⟨new₁, heq₁, hmoved₁⟩ :=
      h.relink hn hl.1 hnodup₁ (fun a ha => hD a (List.mem_append_left _ ha)) hl.2
    have hD₁ : ∀ a ∈ Ls.flatten, ¬ (D a ∨ a ∈ l) := fun a ha => not_or.mpr
      ⟨hD a (List.mem_append_right _ ha), fun ha' => hdisj ha' ha⟩
    obtain ⟨new', heq, hmoved⟩ := ih hnodup₂ hmoved₁ hD₁
    refine ⟨new', ?_, ?_⟩
    · rw [List.foldlM_cons, heq₁]
      exact heq
    · have hiff : (fun x => D x ∨ x ∈ l ++ Ls.flatten) = fun x => (D x ∨ x ∈ l) ∨ x ∈ Ls.flatten := by
        funext x
        rw [List.mem_append, or_assoc]
      rw [hiff]
      exact hmoved

def Fresh (ht : Hashtable) : Prop := ∀ a, (ht.heap a).isSome → a < ht.nextNode

theorem length_le_of_fresh (hfresh : ht.Fresh) {l : List ℕ} (hnodup : l.Nodup)
    (hl : ∀ a ∈ l, (ht.heap a).isSome) : l.length ≤ ht.nextNode := by
  have hsub : l ⊆ List.range ht.nextNode := fun a ha => List.mem_range.mpr (hfresh a (hl a ha))
  have := (List.subperm_of_subset hnodup hsub).length_le
  rwa [List.length_range] at this

theorem Lists.links {L : ℕ → List ℕ} (hL : ht.Lists D L) (hfresh : ht.Fresh) :
    List.Forall₂ (fun p l => Links ht.heap p l ∧ l.length ≤ ht.nextNode) ht.buckets ((List.range ht.getNBuckets).map L) := by
  refine List.forall₂_iff_get.mpr ⟨by simp [getNBuckets], fun i hi hi' => ?_⟩
  obtain ⟨hchain, hnodup, -⟩ := hL i hi
  rw [List.getD_eq_getElem _ _ hi] at hchain
  simp only [List.get_eq_getElem, List.getElem_map, List.getElem_range]
  exact ⟨hchain.links, length_le_of_fresh hfresh hnodup hchain.isSome⟩

theorem Lists.nodup_flatten {L : ℕ → List ℕ} (hL : ht.Lists D L) : ((List.range ht.getNBuckets).map L).flatten.Nodup := by
  refine List.nodup_flatten.mpr ⟨fun l hl => ?_, List.pairwise_map.mpr ?_⟩
  · obtain ⟨i, hi, rfl⟩ := List.mem_map.mp hl
    exact (hL i (List.mem_range.mp hi)).2.1
  · refine List.pairwise_lt_range.imp_of_mem fun {i j} hi hj hij a ha ha' => hij.ne ?_
    obtain ⟨-, c, hc, hci⟩ := ((hL i (List.mem_range.mp hi)).2.2 a).mp ha
    obtain ⟨-, c', hc', hcj⟩ := ((hL j (List.mem_range.mp hj)).2.2 a).mp ha'
    rw [hc, Option.some_inj] at hc'
    rw [← hci, ← hcj, hc']

/-- **Resizing keeps the nodes and links them anew.** -/
theorem Linked.resize (O : HashtableOptions) (h : ht.Linked fun _ => True) (hfresh : ht.Fresh)
    (hpos : 0 < ht.getNBuckets) (hn : 0 < n) :
    ∃ ht', ht.resize O n = some ht' ∧ ht'.Linked (fun _ => True) ∧ ht'.getNBuckets = n ∧
      ht'.nextNode = ht.nextNode ∧ ht'.size = ht.size ∧
      ∀ x, (ht'.heap x).map Cell.val = (ht.heap x).map Cell.val := by
  unfold Hashtable.resize
  by_cases heq : ht.getNBuckets = n
  · exact ⟨ht, if_pos heq, h, heq, rfl, rfl, fun _ => rfl⟩
  · rw [if_neg heq]
    obtain ⟨L, hL⟩ := h
    have hmem : ∀ a, a ∈ ((List.range ht.getNBuckets).map L).flatten ↔
        ∃ i < ht.getNBuckets, a ∈ L i := by
      simp
    have hinit : Moved ht n (fun _ => False) { ht with buckets := List.replicate n none } := by
      refine ⟨⟨fun _ => [], fun i _ => ⟨⟨none, rfl, ?_⟩, List.nodup_nil, ?_⟩⟩, List.length_replicate, rfl,
        fun _ _ => rfl, fun _ => rfl⟩
      · simp only [List.getD_eq_getElem?_getD, List.getElem?_replicate]
        split_ifs <;> rfl
      · simp
    obtain ⟨new, hfold, hmoved⟩ := hinit.foldlM_relink hn (hL.links hfresh) hL.nodup_flatten fun _ _ => id
    refine ⟨new.computeThresholds O, ?_, ?_, hmoved.nBuckets, ?_, ?_, hmoved.val⟩
    · rw [hfold]
      rfl
    · refine hmoved.linked.frame rfl (fun a ha _ => Or.inr ((hmem a).mpr ?_)) (fun _ _ _ => trivial)
        fun _ _ => rfl
      change (new.heap a).isSome at ha
      rw [← Option.isSome_map (f := Cell.val), hmoved.val, Option.isSome_map] at ha
      obtain ⟨c, hc⟩ := Option.isSome_iff_exists.mp ha
      have hlt := ht.computeBucketIndex_lt c.val.hash hpos
      exact ⟨_, hlt, ((hL _ hlt).2.2 a).mpr ⟨trivial, c, hc, rfl⟩⟩
    · rw [hmoved.same]
      rfl
    · rw [hmoved.same]
      rfl

/-! ## The finite map -/

variable {O : HashtableOptions} {hash : Name → ℕ} {m : Name → Option ℕ}

/-- The nodes are those of the map `m` from names to nodes. -/
structure Holds (hash : Name → ℕ) (ht : Hashtable) (m : Name → Option ℕ) : Prop where
  fresh : ht.Fresh
  hash : ∀ {a c}, ht.heap a = some c → c.val.hash = hash c.val.name
  map : ∀ {name a}, m name = some a ↔ ∃ c, ht.heap a = some c ∧ c.val.name = name
  size : ∃ nodes : List ℕ, nodes.Nodup ∧ (∀ a, a ∈ nodes ↔ (ht.heap a).isSome) ∧ ht.size = nodes.length

/-- **The table is a finite map**: it holds `m`, and its buckets are linked lists. -/
structure Represents (O : HashtableOptions) (hash : Name → ℕ) (ht : Hashtable) (m : Name → Option ℕ) :
    Prop where
  linked : ht.Linked fun _ => True
  minSize : O.minSize ≤ ht.getNBuckets
  holds : Holds hash ht m

theorem Holds.of_val (h : Holds hash ht m) (hnext : ht'.nextNode = ht.nextNode) (hsize : ht'.size = ht.size)
    (hval : ∀ x, (ht'.heap x).map Cell.val = (ht.heap x).map Cell.val) : Holds hash ht' m := by
  have hsome : ∀ a, (ht'.heap a).isSome = (ht.heap a).isSome := fun a => by
    rw [← Option.isSome_map (f := Cell.val), hval, Option.isSome_map]
  refine ⟨fun a ha => ?_, fun {a c} hc => ?_, fun {name a} => ?_, ?_⟩
  · rw [hnext]
    exact h.fresh a (hsome a ▸ ha)
  · have hiff := exists_cell_iff (hval a) fun v => c.val = v
    obtain ⟨d, hd, hcd⟩ := hiff.mp ⟨c, hc, rfl⟩
    rw [hcd]
    exact h.hash hd
  · exact h.map.trans (exists_cell_iff (hval a) fun v => v.name = name).symm
  · obtain ⟨nodes, hnodup, hmem, hlen⟩ := h.size
    refine ⟨nodes, hnodup, fun a => ?_, hsize.trans hlen⟩
    rw [hmem, hsome]

theorem Holds.insert (h : Holds hash ht m) {name : Name} (hname : m name = none) :
    Holds hash
      { ht with
        heap := Function.update ht.heap ht.nextNode (some { val := ⟨hash name, name⟩ })
        nextNode := ht.nextNode + 1
        size := ht.size + 1 }
      (Function.update m name (some ht.nextNode)) := by
  have hnew : ht.heap ht.nextNode = none := by
    by_contra hsome
    exact lt_irrefl _ (h.fresh _ (Option.ne_none_iff_isSome.mp hsome))
  refine ⟨fun a ha => ?_, fun {a c} hc => ?_, fun {name' a} => ?_, ?_⟩
  · dsimp only at ha ⊢
    by_cases hne : a = ht.nextNode
    · rw [hne]
      exact Nat.lt_succ_self _
    · rw [Function.update_of_ne hne] at ha
      exact Nat.lt_succ_of_lt (h.fresh a ha)
  · dsimp only at hc
    by_cases hne : a = ht.nextNode
    · rw [hne, Function.update_self, Option.some_inj] at hc
      rw [← hc]
    · rw [Function.update_of_ne hne] at hc
      exact h.hash hc
  · dsimp only
    by_cases hne : a = ht.nextNode
    · subst hne
      by_cases hname' : name' = name
      · rw [hname', Function.update_self, Function.update_self]
        exact ⟨fun _ => ⟨_, rfl, rfl⟩, fun _ => rfl⟩
      · rw [Function.update_of_ne hname', Function.update_self, h.map, hnew]
        constructor
        · rintro ⟨c, hc, -⟩
          cases hc
        · rintro ⟨c, hc, hcname⟩
          rw [← Option.some.inj hc] at hcname
          exact absurd hcname.symm hname'
    · rw [Function.update_of_ne hne, ← h.map]
      by_cases hname' : name' = name
      · rw [hname', Function.update_self, hname]
        simp [Ne.symm hne]
      · rw [Function.update_of_ne hname']
  · obtain ⟨nodes, hnodup, hmem, hlen⟩ := h.size
    refine ⟨ht.nextNode :: nodes, List.nodup_cons.mpr ⟨?_, hnodup⟩, fun a => ?_, ?_⟩
    · rw [hmem, hnew]
      exact Bool.false_ne_true
    · dsimp only
      rw [List.mem_cons, hmem]
      by_cases hne : a = ht.nextNode
      · simp [hne]
      · rw [Function.update_of_ne hne]
        simp [hne]
    · rw [List.length_cons, hlen]

theorem Holds.erase (h : Holds hash ht m) {name : Name} (hname : m name = some node) :
    Holds hash { ht with heap := Function.update ht.heap node none, size := ht.size - 1 }
      (Function.update m name none) := by
  obtain ⟨c, hc, rfl⟩ := h.map.mp hname
  refine ⟨fun a ha => ?_, fun {a d} hd => ?_, fun {name' a} => ?_, ?_⟩
  · dsimp only at ha ⊢
    by_cases hne : a = node
    · rw [hne, Function.update_self] at ha
      cases ha
    · rw [Function.update_of_ne hne] at ha
      exact h.fresh a ha
  · dsimp only at hd
    by_cases hne : a = node
    · rw [hne, Function.update_self] at hd
      cases hd
    · rw [Function.update_of_ne hne] at hd
      exact h.hash hd
  · dsimp only
    by_cases hne : a = node
    · subst hne
      rw [Function.update_self]
      by_cases hname' : name' = c.val.name
      · rw [hname', Function.update_self]
        simp
      · rw [Function.update_of_ne hname', h.map, hc]
        constructor
        · rintro ⟨d, hd, hdname⟩
          exact absurd (hdname.symm.trans (by rw [Option.some.inj hd])) hname'
        · rintro ⟨d, hd, -⟩
          cases hd
    · rw [Function.update_of_ne hne, ← h.map]
      by_cases hname' : name' = c.val.name
      · rw [hname', Function.update_self, hname]
        simp [Ne.symm hne]
      · rw [Function.update_of_ne hname']
  · obtain ⟨nodes, hnodup, hmem, hlen⟩ := h.size
    have hin : node ∈ nodes := (hmem node).mpr (by rw [hc]; rfl)
    refine ⟨nodes.erase node, hnodup.erase node, fun a => ?_, ?_⟩
    · rw [hnodup.mem_erase_iff, hmem]
      dsimp only
      by_cases hne : a = node
      · simp [hne]
      · rw [Function.update_of_ne hne]
        simp [hne]
    · rw [List.length_erase_of_mem hin, hlen]

/-! ## Operations on the map -/

theorem Represents.resize (hO : O.Valid) (h : Represents O hash ht m) (hn : O.minSize ≤ n) :
    ∃ ht', ht.resize O n = some ht' ∧ Represents O hash ht' m ∧ ht'.nextNode = ht.nextNode := by
  obtain ⟨ht', heq, hlinked, hn', hnext, hsize, hval⟩ :=
    h.linked.resize O h.holds.fresh (hO.minSize_pos.trans_le h.minSize) (hO.minSize_pos.trans_le hn)
  exact ⟨ht', heq, ⟨hlinked, hn'.symm ▸ hn, h.holds.of_val hnext hsize hval⟩, hnext⟩

/-- **The search finds the node of a name.** -/
theorem Represents.search (hO : O.Valid) (h : Represents O hash ht m) (name : Name) :
    search ht.heap (hash name) name ht.nextNode
      (ht.buckets.getD (ht.computeBucketIndex (hash name)) none) = some (m name) := by
  obtain ⟨L, hL⟩ := h.linked
  have hlt := ht.computeBucketIndex_lt (hash name) (hO.minSize_pos.trans_le h.minSize)
  obtain ⟨hchain, hnodup, hmem⟩ := hL _ hlt
  rw [search_spec hchain.links (length_le_of_fresh h.holds.fresh hnodup hchain.isSome)]
  refine congrArg some ?_
  have hany : ∀ a, ((ht.heap a).any fun c => c.val.hash = hash name ∧ name = c.val.name) = true ↔
      m name = some a := by
    intro a
    rw [h.holds.map, Option.any_eq_true]
    constructor
    · rintro ⟨c, hc, hname⟩
      exact ⟨c, hc, (of_decide_eq_true hname).2.symm⟩
    · rintro ⟨c, hc, rfl⟩
      exact ⟨c, hc, decide_eq_true ⟨h.holds.hash hc, rfl⟩⟩
  cases hfind : (L (ht.computeBucketIndex (hash name))).find? fun a =>
      (ht.heap a).any fun c => c.val.hash = hash name ∧ name = c.val.name with
  | some a =>
    have hfound := List.find?_some (p := fun a =>
      (ht.heap a).any fun c => c.val.hash = hash name ∧ name = c.val.name) hfind
    exact ((hany a).mp hfound).symm
  | none =>
    rw [List.find?_eq_none] at hfind
    rw [eq_comm, Option.eq_none_iff_forall_ne_some]
    intro a ha
    obtain ⟨c, hc, rfl⟩ := h.holds.map.mp ha
    refine hfind a ((hmem a).mpr ⟨trivial, c, hc, ?_⟩) ((hany a).mpr ha)
    rw [h.holds.hash hc]

theorem Represents.find (hO : O.Valid) (h : Represents O hash ht m) (name : Name) (prefixLen : ℕ) :
    ht.find O hash name prefixLen = some (m (name.take prefixLen)) := by
  unfold Hashtable.find findOrInsert
  rw [h.search hO]
  cases m (name.take prefixLen) <;> rfl

/-- **Insertion of a name that has no node.** -/
theorem Represents.insertNode (hO : O.Valid) (h : Represents O hash ht m) {name : Name}
    (hname : m name = none) :
    ∃ ht', ht.insertNode O name (hash name) = some (ht', ht.nextNode) ∧
      Represents O hash ht' (Function.update m name (some ht.nextNode)) ∧
      ht'.nextNode = ht.nextNode + 1 := by
  have hpos := hO.minSize_pos.trans_le h.minSize
  have hnew : ∀ a, (ht.heap a).isSome → a ≠ ht.nextNode := fun a ha => (h.holds.fresh a ha).ne
  -- the new node is in the heap, and not yet in a bucket
  generalize hht₁ : ({ ht with
    heap := Function.update ht.heap ht.nextNode (some { val := ⟨hash name, name⟩ })
    nextNode := ht.nextNode + 1 } : Hashtable) = ht₁
  have hlinked₁ : ht₁.Linked fun a => a ≠ ht.nextNode := by
    have hlinked : ht.Linked fun a => a ≠ ht.nextNode :=
      h.linked.frame rfl (fun _ _ _ => trivial) (fun a _ ha => hnew a ha) fun _ _ => rfl
    refine hlinked.frame (hht₁ ▸ rfl) (fun _ _ ha => ha) (fun _ ha _ => ha) fun a ha => ?_
    rw [← hht₁]
    exact Function.update_of_ne ha ..
  have hcell : ht₁.heap ht.nextNode = some { val := ⟨hash name, name⟩ } := by
    rw [← hht₁]
    exact Function.update_self ..
  obtain ⟨ht₂, hattach, hlinked₂, hn₂, hsame₂, -, hval₂⟩ :=
    hlinked₁.attach (by rw [← hht₁]; exact hpos) hcell fun h => h rfl
  have hholds := h.holds.insert hname
  have hrep : Represents O hash { ht₂ with size := ht₂.size + 1 }
      (Function.update m name (some ht.nextNode)) := by
    refine ⟨hlinked₂.frame rfl (fun a _ _ => (ne_or_eq a ht.nextNode)) (fun _ _ _ => trivial) fun _ _ => rfl,
      ?_, hholds.of_val ?_ ?_ ?_⟩
    · change O.minSize ≤ ht₂.getNBuckets
      rw [hn₂, ← hht₁]
      exact h.minSize
    · dsimp only
      rw [hsame₂, ← hht₁]
    · dsimp only
      rw [hsame₂, ← hht₁]
    · intro x
      rw [hval₂, ← hht₁]
  have hnext₂ : ht₂.nextNode = ht.nextNode + 1 := by rw [hsame₂, ← hht₁]
  unfold Hashtable.insertNode
  simp only [hht₁, hattach, Option.bind_eq_bind, Option.bind_some]
  by_cases hexpand : ht₂.expandThreshold < ht₂.size + 1
  · obtain ⟨ht', heq, hrep', hnext⟩ := hrep.resize hO (hrep.minSize.trans (hO.le_expandSize _))
    rw [if_pos hexpand, heq]
    exact ⟨ht', rfl, hrep', hnext.trans hnext₂⟩
  · rw [if_neg hexpand]
    exact ⟨_, rfl, hrep, hnext₂⟩

/-- **Insertion finds the node of a name or makes one.** -/
theorem Represents.insert (hO : O.Valid) (h : Represents O hash ht m) (name : Name) (prefixLen : ℕ) :
    match m (name.take prefixLen) with
    | some node => ht.insert O hash name prefixLen = some (ht, some node, false)
    | none => ∃ ht', ht.insert O hash name prefixLen = some (ht', some ht.nextNode, true) ∧
      Represents O hash ht' (Function.update m (name.take prefixLen) (some ht.nextNode)) ∧
      ht'.nextNode = ht.nextNode + 1 := by
  unfold Hashtable.insert findOrInsert
  rw [h.search hO]
  cases hm : m (name.take prefixLen) with
  | some node => rfl
  | none =>
    obtain ⟨ht', heq, hrep, hnext⟩ := h.insertNode hO hm
    refine ⟨ht', ?_, hrep, hnext⟩
    change (do let (t, node) ← ht.insertNode O (name.take prefixLen) (hash (name.take prefixLen)); _) = _
    rw [heq]
    rfl

/-- **Deletion of a node.** -/
theorem Represents.erase (hO : O.Valid) (h : Represents O hash ht m) {name : Name}
    (hname : m name = some node) :
    ∃ ht', ht.erase O node = some ht' ∧ Represents O hash ht' (Function.update m name none) ∧
      ht'.nextNode = ht.nextNode := by
  have hpos := hO.minSize_pos.trans_le h.minSize
  obtain ⟨c, hc, -⟩ := h.holds.map.mp hname
  obtain ⟨ht₁, hdetach, hlinked₁, hn₁, hsame₁, hval₁⟩ := h.linked.detach hpos hc trivial
  generalize hht₂ : ({ ht₁ with
    heap := Function.update ht₁.heap node none, size := ht₁.size - 1 } : Hashtable) = ht₂
  have hsize : ht₁.size = ht.size := by rw [hsame₁]
  have hnext : ht₂.nextNode = ht.nextNode := by rw [← hht₂, hsame₁]
  have hrep : Represents O hash ht₂ (Function.update m name none) := by
    refine ⟨hlinked₁.frame (hht₂ ▸ rfl) (fun a ha _ => ⟨trivial, ?_⟩) (fun _ _ _ => trivial)
      fun a ha => ?_, ?_, (h.holds.erase hname).of_val hnext ?_ fun x => ?_⟩
    · rintro rfl
      rw [← hht₂] at ha
      change (Function.update ht₁.heap a none a).isSome at ha
      rw [Function.update_self] at ha
      cases ha
    · rw [← hht₂]
      exact Function.update_of_ne ha.2 ..
    · rw [← hht₂]
      exact h.minSize.trans_eq hn₁.symm
    · rw [← hht₂, ← hsize]
    · rw [← hht₂]
      change (Function.update ht₁.heap node none x).map Cell.val =
        (Function.update ht.heap node none x).map Cell.val
      by_cases hx : x = node
      · rw [hx, Function.update_self, Function.update_self]
      · rw [Function.update_of_ne hx, Function.update_of_ne hx, hval₁]
  unfold Hashtable.erase
  simp only [hc, hdetach, Option.bind_eq_bind, Option.bind_some, hht₂]
  by_cases hshrink : ht₁.size - 1 < ht₁.shrinkThreshold
  · rw [if_pos hshrink]
    obtain ⟨ht', heq, hrep', hnext'⟩ := hrep.resize hO
      (n := max O.minSize (O.shrinkSize ht₂.getNBuckets)) (le_max_left _ _)
    exact ⟨ht', heq, hrep', hnext'.trans hnext⟩
  · rw [if_neg hshrink]
    exact ⟨ht₂, rfl, hrep, hnext⟩

/-! ## Runs -/

/-- An operation on the table. -/
inductive Op where
  | insert (name : Name) (prefixLen : ℕ)
  | erase (node : ℕ)

/-- One operation. -/
def apply (O : HashtableOptions) (hash : Name → ℕ) (ht : Hashtable) : Op → Option Hashtable
  | .insert name prefixLen => do
    let (ht, _, _) ← ht.insert O hash name prefixLen
    some ht
  | .erase node => ht.erase O node

def run (O : HashtableOptions) (hash : Name → ℕ) (ht : Hashtable) (ops : List Op) : Option Hashtable :=
  ops.foldlM (apply O hash) ht

end Hashtable

structure NodeMap where
  map : Name → Option ℕ := fun _ => none
  next : ℕ := 0

namespace NodeMap

open Hashtable

/-- What an operation does to the map: a name without a node gets a new one, and a node that is erased is
the node of no name. -/
def apply (M : NodeMap) : Op → NodeMap
  | .insert name prefixLen =>
    match M.map (name.take prefixLen) with
    | some _ => M
    | none => ⟨Function.update M.map (name.take prefixLen) (some M.next), M.next + 1⟩
  | .erase node => { M with map := fun name => if M.map name = some node then none else M.map name }

def run (M : NodeMap) (ops : List Op) : NodeMap := ops.foldl apply M

def Valid (M : NodeMap) : List Op → Prop
  | [] => True
  | .insert name prefixLen :: ops => Valid (M.apply (.insert name prefixLen)) ops
  | .erase node :: ops => (∃ name, M.map name = some node) ∧ Valid (M.apply (.erase node)) ops

end NodeMap

namespace Hashtable

variable {O : HashtableOptions} {hash : Name → ℕ} {ht : Hashtable} {M : NodeMap}

/-- **One operation.** -/
theorem Represents.apply (hO : O.Valid) (h : Represents O hash ht M.map) (hnext : ht.nextNode = M.next)
    {op : Op} (hop : ∀ node, op = .erase node → ∃ name, M.map name = some node) :
    ∃ ht', ht.apply O hash op = some ht' ∧ Represents O hash ht' (M.apply op).map ∧
      ht'.nextNode = (M.apply op).next := by
  cases op with
  | insert name prefixLen =>
    have hinsert := h.insert hO name prefixLen
    unfold Hashtable.apply NodeMap.apply
    dsimp only
    cases hm : M.map (name.take prefixLen) with
    | some node =>
      rw [hm] at hinsert
      exact ⟨ht, by rw [hinsert]; rfl, h, hnext⟩
    | none =>
      rw [hm] at hinsert
      obtain ⟨ht', heq, hrep, hnext'⟩ := hinsert
      rw [hnext] at hrep hnext'
      exact ⟨ht', by rw [heq]; rfl, hrep, hnext'⟩
  | erase node =>
    obtain ⟨name, hname⟩ := hop node rfl
    obtain ⟨ht', heq, hrep, hnext'⟩ := h.erase hO hname
    -- no other name has this node
    have hmap : (M.apply (.erase node)).map = Function.update M.map name none := by
      funext name'
      change (if M.map name' = some node then none else M.map name') = _
      by_cases hname' : name' = name
      · rw [hname', if_pos hname, Function.update_self]
      · rw [Function.update_of_ne hname', if_neg]
        intro hnode
        obtain ⟨c, hc, rfl⟩ := h.holds.map.mp hnode
        obtain ⟨d, hd, rfl⟩ := h.holds.map.mp hname
        rw [hc, Option.some_inj] at hd
        exact hname' (by rw [hd])
    exact ⟨ht', heq, hmap ▸ hrep, hnext'.trans hnext⟩

theorem represents_ofOptions (hO : O.Valid) (hash : Name → ℕ) :
    Represents O hash (ofOptions O) fun _ => none := by
  refine ⟨⟨fun _ => [], fun i _ => ⟨⟨none, rfl, ?_⟩, List.nodup_nil, fun a => ?_⟩⟩, ?_, ?_⟩
  · change (List.replicate O.initialSize none).getD i none = none
    simp only [List.getD_eq_getElem?_getD, List.getElem?_replicate]
    split_ifs <;> rfl
  · simp [ofOptions, computeThresholds]
  · change O.minSize ≤ (List.replicate O.initialSize none).length
    rw [List.length_replicate]
    exact hO.minSize_le
  · refine ⟨?_, ?_, ?_, ⟨[], ?_⟩⟩ <;> simp [Fresh, ofOptions, computeThresholds]

theorem Represents.run (hO : O.Valid) (h : Represents O hash ht M.map) (hnext : ht.nextNode = M.next)
    {ops : List Op} (hops : M.Valid ops) :
    ∃ ht', ht.run O hash ops = some ht' ∧ Represents O hash ht' (M.run ops).map := by
  induction ops generalizing ht M with
  | nil => exact ⟨ht, rfl, h⟩
  | cons op ops ih =>
    have hop : (∀ node, op = .erase node → ∃ name, M.map name = some node) ∧ (M.apply op).Valid ops := by
      cases op with
      | insert name prefixLen =>
        refine ⟨fun node hnode => ?_, hops⟩
        cases hnode
      | erase node =>
        refine ⟨fun node' hnode => ?_, hops.2⟩
        cases hnode
        exact hops.1
    obtain ⟨ht₁, heq₁, hrep₁, hnext₁⟩ := h.apply hO hnext hop.1
    obtain ⟨ht', heq, hrep⟩ := ih hrep₁ hnext₁ hop.2
    refine ⟨ht', ?_, hrep⟩
    rw [Hashtable.run, List.foldlM_cons, heq₁]
    exact heq

/-- **The hashtable is a finite map.** -/
structure IsFiniteMap (O : HashtableOptions) (hash : Name → ℕ) (ht : Hashtable) (m : Name → Option ℕ) :
    Prop where
  /-- A name is found just if it has a node. -/
  find : ∀ name prefixLen, ht.find O hash name prefixLen = some (m (name.take prefixLen))
  /-- There is at most one node for each name. -/
  unique : ∀ {a b c d}, ht.heap a = some c → ht.heap b = some d → c.val.name = d.val.name → a = b
  /-- Each bucket is a doubly linked list of the nodes whose hash values lead to it. -/
  buckets : ∃ L : ℕ → List ℕ, ∀ i < ht.getNBuckets,
    Chain ht.heap (ht.buckets.getD i none) (L i) ∧ (L i).Nodup ∧
      ∀ a, a ∈ L i ↔ ∃ c, ht.heap a = some c ∧ hash c.val.name % ht.getNBuckets = i
  /-- The size is the number of nodes. -/
  size : ∃ nodes : List ℕ, nodes.Nodup ∧ (∀ a, a ∈ nodes ↔ (ht.heap a).isSome) ∧ ht.size = nodes.length
  minSize : O.minSize ≤ ht.getNBuckets

theorem Represents.isFiniteMap (hO : O.Valid) {m : Name → Option ℕ} (h : Represents O hash ht m) :
    IsFiniteMap O hash ht m := by
  refine ⟨h.find hO, fun {a b c d} hc hd hname => ?_, ?_, h.holds.size, h.minSize⟩
  · have ha := h.holds.map.mpr ⟨c, hc, rfl⟩
    have hb := h.holds.map.mpr ⟨d, hd, rfl⟩
    rw [hname, hb] at ha
    exact (Option.some.inj ha).symm
  · obtain ⟨L, hL⟩ := h.linked
    refine ⟨L, fun i hi => ?_⟩
    obtain ⟨hchain, hnodup, hmem⟩ := hL i hi
    refine ⟨hchain, hnodup, fun a => (hmem a).trans ?_⟩
    rw [true_and]
    refine exists_congr fun c => and_congr_right fun hc => ?_
    rw [computeBucketIndex, h.holds.hash hc]

/-- **In every run that erases only nodes of the table, no assertion fails, every loop ends, and the table is
the finite map that the operations describe.** -/
theorem run_isFiniteMap (hO : O.Valid) (hash : Name → ℕ) {ops : List Op} (hops : NodeMap.Valid {} ops) :
    ∃ ht, run O hash (ofOptions O) ops = some ht ∧
      IsFiniteMap O hash ht (NodeMap.run {} ops).map := by
  obtain ⟨ht, heq, hrep⟩ := (represents_ofOptions hO hash).run (M := {}) hO rfl hops
  exact ⟨ht, heq, hrep.isFiniteMap hO⟩

/-- Two components whose hash values cancel out, in both orders, and a table that expands and shrinks. -/
def collidingOps : List Op :=
  [.insert [.mk 8 [1], .mk 8 [2]] 2, .insert [.mk 8 [2], .mk 8 [1]] 2, .insert [] 0, .erase 1, .erase 0]

theorem run_isFiniteMap_collidingOps :
    ∃ ht, run (.ofFactors 1 1 (1/2) 2 (1/10) (1/2))
        (fun name => computeHash (fun comp => comp.value.length) name name.length)
        (ofOptions (.ofFactors 1 1 (1/2) 2 (1/10) (1/2))) collidingOps = some ht ∧
      IsFiniteMap (.ofFactors 1 1 (1/2) 2 (1/10) (1/2))
        (fun name => computeHash (fun comp => comp.value.length) name name.length) ht
        (NodeMap.run {} collidingOps).map := by
  refine run_isFiniteMap (HashtableOptions.valid_ofFactors (by decide) (by decide) (by norm_num) _ _ _) _ ?_
  exact ⟨⟨[.mk 8 [2], .mk 8 [1]], by decide⟩, ⟨[.mk 8 [1], .mk 8 [2]], by decide⟩, trivial⟩

end Hashtable

end Ns3Ndn
