import Ns3Ndn.Table.Hashtable

/-!
# Enumeration of the hashtable

`FullEnumerationImpl` of `NFD/daemon/table/name-tree-iterator.cpp`: an iterator over all nodes of the name tree, bucket by
bucket. It keeps only the node it is at, and goes on from its bucket, whose index it computes from the hash value. The
nodes are taken by a selector, which is a predicate of names here, as the tree is not changed while the iterator advances.

* `Layout`: the buckets, and the order of all nodes;
* **`Represents.fullEnumerate`**: the iterator comes to its end, and visits each node that is taken just once.
-/

namespace Ns3Ndn.Hashtable

open ChainLib

/-! ## The iterator -/

section Iterator

variable (ht : Hashtable) (pred : Name → Bool)

def firstInBucket : (fuel : ℕ) → (node : Option ℕ) → Option (Option ℕ)
  | _, none => some none
  | 0, some _ => none
  | fuel + 1, some node => do
    let c ← ht.heap node
    if pred c.val.name then some (some node) else firstInBucket fuel c.next

def firstInBuckets : List (Option ℕ) → Option (Option ℕ)
  | [] => some none
  | head :: buckets => do
    match ← ht.firstInBucket pred ht.nextNode head with
    | some node => some (some node)
    | none => firstInBuckets buckets

def advanceFrom (node : ℕ) : Option (Option ℕ) := do
  let c ← ht.heap node
  match ← ht.firstInBucket pred ht.nextNode c.next with
  | some node => some (some node)
  | none => ht.firstInBuckets pred (ht.buckets.drop (ht.computeBucketIndex c.val.hash + 1))

/-- `FullEnumerationImpl::advance`: the node that the iterator is at afterwards, or that it is at the end. -/
def fullAdvance (entry : Option ℕ) : Option (Option ℕ) :=
  match entry with
  | some node => ht.advanceFrom pred node
  | none =>
    match ht.buckets.findSome? id with
    | none => some none
    | some node => do
      let c ← ht.heap node
      if pred c.val.name then some (some node) else ht.advanceFrom pred node

def fullVisitsAfter : (fuel : ℕ) → (node : ℕ) → Option (List ℕ)
  | 0, _ => none
  | fuel + 1, node => do
    match ← ht.fullAdvance pred (some node) with
    | none => some []
    | some next => (fullVisitsAfter fuel next).map fun rest => next :: rest

/-- `fullEnumerate`: the nodes that are visited. -/
def fullEnumerate : Option (List ℕ) := do
  match ← ht.fullAdvance pred none with
  | none => some []
  | some node => (ht.fullVisitsAfter pred (ht.nextNode + 1) node).map fun rest => node :: rest

end Iterator

/-- **The buckets are the lists `Ls`**, and each node is in the list of its hash value. -/
structure Layout (ht : Hashtable) (Ls : List (List ℕ)) : Prop where
  links : List.Forall₂ (fun p l => Links ht.heap p l ∧ l.length ≤ ht.nextNode) ht.buckets Ls
  nodup : Ls.flatten.Nodup
  index : ∀ i (hi : i < Ls.length), ∀ a ∈ Ls[i], ∃ c, ht.heap a = some c ∧ ht.computeBucketIndex c.val.hash = i

variable {O : HashtableOptions} {hash : Name → ℕ} {m : Name → Option ℕ} {ht : Hashtable} {pred : Name → Bool} {Ls : List (List ℕ)}

theorem Represents.layout (hO : O.Valid) (h : Represents O hash ht m) :
    ∃ Ls, ht.Layout Ls ∧ ∀ a, a ∈ Ls.flatten ↔ (ht.heap a).isSome := by
  obtain ⟨L, hL⟩ := h.linked
  have hmem : ∀ a, a ∈ ((List.range ht.getNBuckets).map L).flatten ↔ ∃ i < ht.getNBuckets, a ∈ L i := by simp
  refine ⟨(List.range ht.getNBuckets).map L, ⟨hL.links h.holds.fresh, hL.nodup_flatten, ?_⟩, fun a => ?_⟩
  · intro i hi a ha
    rw [List.length_map, List.length_range] at hi
    rw [List.getElem_map, List.getElem_range] at ha
    exact (((hL i hi).2.2 a).mp ha).2
  · rw [hmem]
    constructor
    · rintro ⟨i, hi, ha⟩
      obtain ⟨-, c, hc, -⟩ := ((hL i hi).2.2 a).mp ha
      rw [hc]
      rfl
    · intro ha
      obtain ⟨c, hc⟩ := Option.isSome_iff_exists.mp ha
      have hlt := ht.computeBucketIndex_lt c.val.hash (hO.minSize_pos.trans_le h.minSize)
      exact ⟨_, hlt, ((hL _ hlt).2.2 a).mpr ⟨trivial, c, hc, rfl⟩⟩

/-! ## The iterator follows the order -/

def takes (ht : Hashtable) (pred : Name → Bool) (node : ℕ) : Bool := (ht.heap node).any fun c => pred c.val.name

theorem firstInBucket_eq {p : Option ℕ} {l : List ℕ} (h : Links ht.heap p l) {fuel : ℕ} (hfuel : l.length ≤ fuel) :
    ht.firstInBucket pred fuel p = some (l.find? (ht.takes pred)) := by
  induction l generalizing p fuel with
  | nil =>
    obtain rfl : p = none := h
    cases fuel <;> rfl
  | cons a l ih =>
    obtain ⟨rfl, c, hc, hlinks⟩ := h
    obtain ⟨fuel, rfl⟩ := Nat.exists_eq_add_of_lt (Nat.lt_of_lt_of_le (Nat.zero_lt_succ l.length) hfuel)
    rw [Nat.zero_add, List.length_cons] at hfuel
    have htakes : ht.takes pred a = pred c.val.name := by rw [takes, hc]; rfl
    rw [Nat.zero_add, firstInBucket, hc, List.find?_cons, htakes]
    cases hp : pred c.val.name with
    | true => simp [hp]
    | false => simpa [hp] using ih hlinks (Nat.le_of_succ_le_succ hfuel)

theorem firstInBuckets_eq {buckets : List (Option ℕ)}
    (h : List.Forall₂ (fun p l => Links ht.heap p l ∧ l.length ≤ ht.nextNode) buckets Ls) :
    ht.firstInBuckets pred buckets = some (Ls.flatten.find? (ht.takes pred)) := by
  induction h with
  | nil => rfl
  | @cons p l buckets Ls hp _ ih =>
    rw [firstInBuckets, firstInBucket_eq hp.1 hp.2, List.flatten_cons, List.find?_append]
    cases hl : l.find? (ht.takes pred) with
    | none => simpa using ih
    | some node => rfl

theorem links_cons {h : Heap HtNode} {p : Option ℕ} {l₁ l₂ : List ℕ} {a : ℕ} (hlinks : Links h p (l₁ ++ a :: l₂)) :
    ∃ c, h a = some c ∧ Links h c.next l₂ := by
  induction l₁ generalizing p with
  | nil => exact hlinks.2
  | cons b l₁ ih =>
    obtain ⟨-, c, -, hlinks⟩ := hlinks
    exact ih hlinks

/-- **From a node the iterator goes to the next one that is taken.** -/
theorem Layout.advanceFrom_eq (h : ht.Layout Ls) {before after : List ℕ} {a : ℕ} (hsplit : Ls.flatten = before ++ a :: after) :
    ht.advanceFrom pred a = some (after.find? (ht.takes pred)) := by
  have ha : a ∈ Ls.flatten := by simp [hsplit]
  obtain ⟨l, hl, hal⟩ := List.mem_flatten.mp ha
  obtain ⟨i, hi, rfl⟩ := List.mem_iff_getElem.mp hl
  obtain ⟨c, hc, hindex⟩ := h.index i hi a hal
  obtain ⟨l₁, l₂, hl₁⟩ := List.append_of_mem hal
  have hbuckets : i < ht.buckets.length := by rw [h.links.length_eq]; exact hi
  obtain ⟨hlinks, hlen⟩ := (List.forall₂_iff_get.mp h.links).2 i hbuckets hi
  simp only [List.get_eq_getElem] at hlinks hlen
  rw [hl₁] at hlinks hlen
  -- what comes after the node is the rest of its bucket, and the other buckets
  have hflatten : Ls.flatten = ((Ls.take i).flatten ++ l₁) ++ a :: (l₂ ++ (Ls.drop (i + 1)).flatten) := by
    conv_lhs => rw [← List.take_append_drop i Ls, List.flatten_append, List.drop_eq_getElem_cons hi, List.flatten_cons, hl₁]
    simp
  have hafter : after = l₂ ++ (Ls.drop (i + 1)).flatten := by
    have hnodup : (before ++ a :: after).Nodup := hsplit ▸ h.nodup
    have hnodup' := h.nodup
    rw [hflatten] at hnodup'
    have hbefore : a ∉ before := fun h => (List.nodup_append.mp hnodup).2.2 a h a List.mem_cons_self rfl
    have hafter' : a ∉ after := (List.nodup_cons.mp (List.nodup_append.mp hnodup).2.1).1
    exact ((List.append_cons_inj_of_notMem hbefore hafter').mp (hsplit.symm.trans hflatten)).2.2
  obtain ⟨c', hc', hnext⟩ := links_cons hlinks
  rw [hc] at hc'
  obtain rfl := Option.some.inj hc'
  have hrest : ht.firstInBuckets pred (ht.buckets.drop (i + 1)) = some ((Ls.drop (i + 1)).flatten.find? (ht.takes pred)) :=
    firstInBuckets_eq (List.forall₂_drop (i + 1) h.links)
  unfold advanceFrom
  rw [hc, hafter, List.find?_append]
  change (ht.firstInBucket pred ht.nextNode c.next).bind _ = _
  rw [firstInBucket_eq hnext (by simp at hlen; omega), Option.bind_some]
  cases l₂.find? (ht.takes pred) with
  | none =>
    rw [hindex]
    exact hrest
  | some node => rfl

theorem Layout.fullVisitsAfter_eq (h : ht.Layout Ls) {fuel : ℕ} {before after : List ℕ} {a : ℕ}
    (hsplit : Ls.flatten = before ++ a :: after) (hfuel : after.length < fuel) :
    ht.fullVisitsAfter pred fuel a = some (after.filter (ht.takes pred)) := by
  induction fuel generalizing before after a with
  | zero => exact absurd hfuel (Nat.not_lt_zero _)
  | succ fuel ih =>
    rw [fullVisitsAfter, fullAdvance, h.advanceFrom_eq hsplit]
    cases hfind : after.find? (ht.takes pred) with
    | none =>
      rw [List.filter_eq_nil_iff.mpr (List.find?_eq_none.mp hfind)]
      rfl
    | some b =>
      obtain ⟨hb, skipped, rest, rfl, hskipped⟩ := List.find?_eq_some_iff_append.mp hfind
      have hfilter : skipped.filter (ht.takes pred) = [] :=
        List.filter_eq_nil_iff.mpr fun x hx => by simpa using hskipped x hx
      have hsplit' : Ls.flatten = (before ++ a :: skipped) ++ b :: rest := by rw [hsplit, List.append_assoc, List.cons_append]
      have hrest := ih hsplit' (by simp at hfuel; omega)
      rw [List.filter_append, hfilter, List.nil_append, List.filter_cons_of_pos hb]
      change (ht.fullVisitsAfter pred fuel b).map _ = _
      rw [hrest]
      rfl

theorem Layout.fullEnumerate_eq (h : ht.Layout Ls) (hlen : Ls.flatten.length ≤ ht.nextNode) :
    ht.fullEnumerate pred = some (Ls.flatten.filter (ht.takes pred)) := by
  have hfirst : ht.buckets.findSome? id = Ls.flatten.head? := by
    have hlinks := h.links
    clear h hlen
    generalize ht.buckets = buckets at hlinks
    induction hlinks with
    | nil => rfl
    | @cons p l buckets Ls hp _ ih =>
      rw [List.findSome?_cons, List.flatten_cons, List.head?_append]
      cases l with
      | nil =>
        obtain rfl : p = none := hp.1
        exact ih
      | cons a l =>
        obtain rfl : p = some a := hp.1.1
        rfl
  unfold fullEnumerate fullAdvance
  dsimp only
  rw [hfirst]
  rcases hnodes : Ls.flatten with _ | ⟨a, after⟩
  · rfl
  · have hsplit : Ls.flatten = [] ++ a :: after := hnodes
    have hafter : after.length < ht.nextNode + 1 := by
      rw [hnodes, List.length_cons] at hlen
      omega
    obtain ⟨l, hl, ha⟩ := List.mem_flatten.mp (hnodes ▸ List.mem_cons_self : a ∈ Ls.flatten)
    obtain ⟨i, hi, rfl⟩ := List.mem_iff_getElem.mp hl
    obtain ⟨c, hc, -⟩ := h.index i hi a ha
    have htakes : ht.takes pred a = pred c.val.name := by rw [takes, hc]; rfl
    rw [List.head?_cons]
    dsimp only
    rw [hc, Option.bind_eq_bind, Option.bind_eq_bind, Option.bind_some, List.filter_cons, htakes]
    by_cases hp : pred c.val.name = true
    · rw [if_pos hp, if_pos hp, Option.bind_some]
      dsimp only
      rw [h.fullVisitsAfter_eq hsplit hafter]
      rfl
    · rw [if_neg hp, if_neg hp, h.advanceFrom_eq hsplit, Option.bind_some]
      -- the first node is not taken: the iterator is at the next one that is
      cases hfind : after.find? (ht.takes pred) with
      | none => rw [List.filter_eq_nil_iff.mpr (List.find?_eq_none.mp hfind)]
      | some b =>
        obtain ⟨hb, skipped, rest, rfl, hskipped⟩ := List.find?_eq_some_iff_append.mp hfind
        have hfilter : skipped.filter (ht.takes pred) = [] :=
          List.filter_eq_nil_iff.mpr fun x hx => by simpa using hskipped x hx
        have hsplit' : Ls.flatten = (a :: skipped) ++ b :: rest := hsplit
        dsimp only
        rw [h.fullVisitsAfter_eq hsplit' (by simp at hafter; omega), List.filter_append, hfilter, List.nil_append,
          List.filter_cons_of_pos hb]
        rfl

/-- **The iterator comes to its end, and visits each node that is taken just once.** -/
theorem Represents.fullEnumerate (hO : O.Valid) (h : Represents O hash ht m) (pred : Name → Bool) :
    ∃ nodes, ht.fullEnumerate pred = some nodes ∧ nodes.Nodup ∧
      ∀ a, a ∈ nodes ↔ ∃ name, m name = some a ∧ pred name = true := by
  obtain ⟨Ls, hlayout, hmem⟩ := h.layout hO
  have hlen : Ls.flatten.length ≤ ht.nextNode :=
    length_le_of_fresh h.holds.fresh hlayout.nodup fun a ha => (hmem a).mp ha
  refine ⟨_, hlayout.fullEnumerate_eq hlen, hlayout.nodup.filter _, fun a => ?_⟩
  rw [List.mem_filter, hmem]
  constructor
  · rintro ⟨ha, htakes⟩
    obtain ⟨c, hc⟩ := Option.isSome_iff_exists.mp ha
    rw [takes, hc] at htakes
    exact ⟨c.val.name, h.holds.map.mpr ⟨c, hc, rfl⟩, htakes⟩
  · rintro ⟨name, hname, hpred⟩
    obtain ⟨c, hc, rfl⟩ := h.holds.map.mp hname
    rw [takes, hc]
    exact ⟨rfl, hpred⟩

end Ns3Ndn.Hashtable
