import Mathlib

/-!
# The Dead Nonce List

`NFD/daemon/table/dead-nonce-list.cpp`: hashes of names and nonces in a queue, between marks that are inserted at equal
intervals. The number of marks in the queue tells how long an entry stays, and moves the capacity.

* `Inv`: entries are in the queue once, and the capacity is within its limits;
* `Retained`: an entry with not too many others behind it, **`Retained.step`**: one operation puts at most one behind it;
* **`run_retains`**: no entry is lost before `minCapacity` more insertions.
-/

namespace Ns3Ndn.Table

/-- A hash. -/
abbrev Entry := UInt64

/-- The queue from its front, the capacity, and `m_actualMarkCounts`. -/
structure DeadNonceList where
  queue : List Entry
  capacity : ℕ
  actualMarkCounts : Multiset ℕ

namespace DeadNonceList

def initialCapacity : ℕ := 2 ^ 14
def minCapacity : ℕ := 2 ^ 10
def maxCapacity : ℕ := 2 ^ 24
def MARK : Entry := 0
def expectedMarkCount : ℕ := 5
def evictLimit : ℕ := 64

def capacityUp (capacity : ℕ) : ℕ := capacity * 6 / 5
def capacityDown (capacity : ℕ) : ℕ := capacity * 9 / 10

/-- The constructor. -/
def initial : DeadNonceList where
  queue := List.replicate expectedMarkCount MARK
  capacity := initialCapacity
  actualMarkCounts := 0

section Code

variable (s : DeadNonceList)

def countMarks : ℕ := s.queue.count MARK

def size : ℕ := s.queue.length - s.countMarks

/-- `evictEntries`. There is no result if the assertion at its end fails. -/
def evictEntries : Option DeadNonceList :=
  if s.queue.length ≤ s.capacity then some s
  else
    let nEvict := min (s.queue.length - s.capacity) evictLimit
    let queue := s.queue.drop nEvict
    if queue.length ≥ s.capacity then some { s with queue := queue } else none

/-- `add` of the hash of a name and a nonce. One that is not the mark is in the queue once, and goes to the end. -/
def addEntry (entry : Entry) : Option DeadNonceList :=
  if entry ∈ s.queue then some { s with queue := s.queue.erase entry ++ [entry] }
  else evictEntries { s with queue := s.queue ++ [entry] }

def hasEntry (entry : Entry) : Bool := entry ∈ s.queue

def mark : DeadNonceList :=
  let s := { s with queue := s.queue ++ [MARK] }
  { s with actualMarkCounts := s.countMarks ::ₘ s.actualMarkCounts }

/-- The capacity after the adjustment: no count is at most the expected one, or none is at least the expected one. -/
def adjustedCapacity : ℕ :=
  if s.actualMarkCounts.countP (· ≤ expectedMarkCount) = 0 then max minCapacity (capacityDown s.capacity)
  else if s.actualMarkCounts.countP (expectedMarkCount ≤ ·) = 0 then min maxCapacity (capacityUp s.capacity)
  else s.capacity

def adjustCapacity : Option DeadNonceList := evictEntries { s with capacity := s.adjustedCapacity, actualMarkCounts := 0 }

end Code

/-! ## Runs -/

/-- An operation. Names and nonces are of any type with a hash. -/
inductive Op (κ : Type) where
  | add (nameNonce : κ)
  | mark
  | adjustCapacity

section Run

variable {κ : Type} (makeEntry : κ → Entry)

def add (s : DeadNonceList) (nameNonce : κ) : Option DeadNonceList := s.addEntry (makeEntry nameNonce)

def has (s : DeadNonceList) (nameNonce : κ) : Bool := s.hasEntry (makeEntry nameNonce)

def step (s : DeadNonceList) : Op κ → Option DeadNonceList
  | .add nameNonce => s.add makeEntry nameNonce
  | .mark => some s.mark
  | .adjustCapacity => s.adjustCapacity

def run (s : DeadNonceList) : List (Op κ) → Option DeadNonceList
  | [] => some s
  | op :: ops => (s.step makeEntry op).bind fun s => run s ops

def Op.inserts : Op κ → Bool
  | .add _ => true
  | .mark => true
  | .adjustCapacity => false

end Run

/-! ## The invariant -/

/-- **Entries that are not marks are there once**, and the capacity is within its limits. -/
structure Inv (s : DeadNonceList) : Prop where
  once : ∀ entry, entry ≠ MARK → s.queue.count entry ≤ 1
  min_le : minCapacity ≤ s.capacity
  le_max : s.capacity ≤ maxCapacity

section Inv

variable {s t : DeadNonceList} {entry : Entry}

theorem inv_initial : Inv initial where
  once entry h := by
    rw [initial, List.count_replicate, if_neg (by simpa using h.symm)]
    exact Nat.zero_le 1
  min_le := by decide
  le_max := by decide

/-- **What is evicted** leaves as many entries as the capacity. The assertion holds. -/
theorem evictEntries_eq (s : DeadNonceList) : ∃ n, s.evictEntries = some { s with queue := s.queue.drop n } ∧
    (n = 0 ∨ s.capacity ≤ s.queue.length - n) := by
  unfold evictEntries
  by_cases hle : s.queue.length ≤ s.capacity
  · exact ⟨0, by rw [if_pos hle, List.drop_zero], .inl rfl⟩
  · have hassert : s.capacity ≤ s.queue.length - min (s.queue.length - s.capacity) evictLimit := by omega
    refine ⟨min (s.queue.length - s.capacity) evictLimit, ?_, .inr hassert⟩
    rw [if_neg hle]
    dsimp only
    rw [List.length_drop, if_pos hassert]

theorem Inv.evictEntries (h : Inv s) (ht : s.evictEntries = some t) : Inv t := by
  obtain ⟨n, heq, -⟩ := evictEntries_eq s
  obtain rfl := Option.some_inj.mp (heq.symm.trans ht)
  exact ⟨fun entry hne => ((List.drop_sublist n s.queue).count_le entry).trans (h.once entry hne), h.min_le, h.le_max⟩

theorem Inv.addEntry (h : Inv s) (ht : s.addEntry entry = some t) : Inv t := by
  unfold DeadNonceList.addEntry at ht
  split_ifs at ht with hmem
  · obtain rfl := Option.some_inj.mp ht
    refine ⟨fun e he => ?_, h.min_le, h.le_max⟩
    have hperm : (s.queue.erase entry ++ [entry]).Perm s.queue :=
      (List.perm_append_singleton _ _).trans (List.perm_cons_erase hmem).symm
    dsimp only
    rw [hperm.count_eq]
    exact h.once e he
  · have hinv : Inv { s with queue := s.queue ++ [entry] } := by
      refine ⟨fun e he => ?_, h.min_le, h.le_max⟩
      rw [List.count_append]
      by_cases heq : entry = e
      · subst heq
        rw [List.count_eq_zero_of_not_mem hmem]
        simp
      · rw [List.count_singleton, if_neg (by simpa using heq), Nat.add_zero]
        exact h.once e he
    exact hinv.evictEntries ht

theorem Inv.mark (h : Inv s) : Inv s.mark := by
  refine ⟨fun e he => ?_, h.min_le, h.le_max⟩
  change (s.queue ++ [MARK]).count e ≤ 1
  rw [List.count_append, List.count_singleton, if_neg (by simpa using he.symm), Nat.add_zero]
  exact h.once e he

theorem Inv.adjustedCapacity (h : Inv s) : minCapacity ≤ s.adjustedCapacity ∧ s.adjustedCapacity ≤ maxCapacity := by
  have hmin := h.min_le
  have hmax := h.le_max
  have hlimits : minCapacity ≤ maxCapacity := by decide
  unfold DeadNonceList.adjustedCapacity capacityDown capacityUp
  split_ifs <;> constructor <;> omega

theorem Inv.adjustCapacity (h : Inv s) (ht : s.adjustCapacity = some t) : Inv t := by
  have hinv : Inv { s with capacity := s.adjustedCapacity, actualMarkCounts := 0 } :=
    ⟨h.once, h.adjustedCapacity.1, h.adjustedCapacity.2⟩
  exact hinv.evictEntries ht

end Inv

/-! ## Retention -/

/-- An entry in the queue, with at most `n` entries behind it. -/
def Retained (entry : Entry) (n : ℕ) (s : DeadNonceList) : Prop :=
  ∃ front behind, s.queue = front ++ entry :: behind ∧ behind.length ≤ n

section Retained

variable {s t : DeadNonceList} {entry other : Entry} {n : ℕ}

theorem Retained.hasEntry (h : Retained entry n s) : s.hasEntry entry = true := by
  obtain ⟨front, behind, hqueue, -⟩ := h
  simp [DeadNonceList.hasEntry, hqueue]

theorem Retained.evictEntries (h : Retained entry n s) (hn : n < s.capacity) (ht : s.evictEntries = some t) :
    Retained entry n t := by
  obtain ⟨front, behind, hqueue, hlen⟩ := h
  obtain ⟨k, heq, hk⟩ := evictEntries_eq s
  obtain rfl := Option.some_inj.mp (heq.symm.trans ht)
  have hle : k ≤ front.length := by
    rcases hk with rfl | hk
    · exact Nat.zero_le _
    · rw [hqueue, List.length_append, List.length_cons] at hk
      omega
  refine ⟨front.drop k, behind, ?_, hlen⟩
  dsimp only
  rw [hqueue, List.drop_append_of_le_length hle]

theorem retained_addEntry (s : DeadNonceList) (hcap : 0 < s.capacity) (ht : s.addEntry entry = some t) : Retained entry 0 t := by
  unfold addEntry at ht
  split_ifs at ht with hmem
  · obtain rfl := Option.some_inj.mp ht
    exact ⟨s.queue.erase entry, [], rfl, le_rfl⟩
  · have hlast : Retained entry 0 { s with queue := s.queue ++ [entry] } := ⟨s.queue, [], rfl, le_rfl⟩
    exact hlast.evictEntries hcap ht

theorem Retained.addEntry (h : Retained entry n s) (hn : n + 1 < s.capacity) (ht : s.addEntry other = some t) :
    Retained entry (n + 1) t := by
  by_cases hsame : other = entry
  · subst hsame
    obtain ⟨front, behind, hqueue, hlen⟩ := retained_addEntry s (by omega) ht
    exact ⟨front, behind, hqueue, hlen.trans (Nat.zero_le _)⟩
  · obtain ⟨front, behind, hqueue, hlen⟩ := h
    unfold DeadNonceList.addEntry at ht
    split_ifs at ht with hmem
    · obtain rfl := Option.some_inj.mp ht
      by_cases hfront : other ∈ front
      · refine ⟨front.erase other, behind ++ [other], ?_, by simpa using hlen⟩
        dsimp only
        rw [hqueue, List.erase_append_left _ hfront, List.append_assoc, List.cons_append]
      · refine ⟨front, behind.erase other ++ [other], ?_, ?_⟩
        · dsimp only
          rw [hqueue, List.erase_append_right _ hfront, List.erase_cons_tail (by simpa using Ne.symm hsame), List.append_assoc,
            List.cons_append]
        · rw [List.length_append, List.length_singleton]
          exact Nat.succ_le_succ ((List.length_erase_le).trans hlen)
    · have hbehind : Retained entry (n + 1) { s with queue := s.queue ++ [other] } := by
        refine ⟨front, behind ++ [other], ?_, by simpa using hlen⟩
        dsimp only
        rw [hqueue, List.append_assoc, List.cons_append]
      exact hbehind.evictEntries hn ht

theorem Retained.mark (h : Retained entry n s) : Retained entry (n + 1) s.mark := by
  obtain ⟨front, behind, hqueue, hlen⟩ := h
  refine ⟨front, behind ++ [MARK], ?_, by simpa using hlen⟩
  change s.queue ++ [MARK] = _
  rw [hqueue, List.append_assoc, List.cons_append]

theorem Retained.adjustCapacity (h : Retained entry n s) (hs : Inv s) (hn : n < minCapacity)
    (ht : s.adjustCapacity = some t) : Retained entry n t := by
  have hadjusted : Retained entry n { s with capacity := s.adjustedCapacity, actualMarkCounts := 0 } := h
  exact hadjusted.evictEntries (hn.trans_le hs.adjustedCapacity.1) ht

end Retained

/-! ## Runs -/

section Runs

variable {κ : Type} {makeEntry : κ → Entry} {s t : DeadNonceList} {ops : List (Op κ)} {op : Op κ}

/-- No operation fails the assertion. -/
theorem exists_step (s : DeadNonceList) (op : Op κ) : ∃ t, s.step makeEntry op = some t := by
  have hevict : ∀ u : DeadNonceList, ∃ t, u.evictEntries = some t := fun u => by
    obtain ⟨n, heq, -⟩ := evictEntries_eq u
    exact ⟨_, heq⟩
  cases op with
  | add nameNonce =>
    change ∃ t, s.addEntry (makeEntry nameNonce) = some t
    unfold addEntry
    split_ifs
    · exact ⟨_, rfl⟩
    · exact hevict _
  | mark => exact ⟨_, rfl⟩
  | adjustCapacity => exact hevict _

theorem Inv.step (h : Inv s) (ht : s.step makeEntry op = some t) : Inv t := by
  cases op with
  | add nameNonce => exact h.addEntry ht
  | mark =>
    obtain rfl := Option.some_inj.mp ht
    exact h.mark
  | adjustCapacity => exact h.adjustCapacity ht

/-- **One operation** puts at most one entry behind another. -/
theorem Retained.step {entry : Entry} {n : ℕ} (h : Retained entry n s) (hs : Inv s)
    (hn : n + (if op.inserts then 1 else 0) < minCapacity) (ht : s.step makeEntry op = some t) :
    Retained entry (n + if op.inserts then 1 else 0) t := by
  have hcap := hs.min_le
  cases op with
  | add nameNonce => exact h.addEntry (hn.trans_le hcap) ht
  | mark =>
    obtain rfl := Option.some_inj.mp ht
    exact h.mark
  | adjustCapacity => exact h.adjustCapacity hs hn ht

theorem run_inv (hs : Inv s) (ops : List (Op κ)) : ∃ t, s.run makeEntry ops = some t ∧ Inv t := by
  induction ops generalizing s with
  | nil => exact ⟨s, rfl, hs⟩
  | cons op ops ih =>
    obtain ⟨t, ht⟩ : ∃ t, s.step makeEntry op = some t := exists_step s op
    rw [run, ht, Option.bind_some]
    exact ih (hs.step ht)

theorem run_append (s : DeadNonceList) (ops ops' : List (Op κ)) :
    s.run makeEntry (ops ++ ops') = (s.run makeEntry ops).bind fun t => t.run makeEntry ops' := by
  induction ops generalizing s with
  | nil => rfl
  | cons op ops ih =>
    rw [List.cons_append, run, run, Option.bind_assoc]
    exact Option.bind_congr fun t _ => ih t

theorem Retained.run {entry : Entry} {n : ℕ} (h : Retained entry n s) (hs : Inv s)
    (hn : n + ops.countP Op.inserts < minCapacity) (ht : s.run makeEntry ops = some t) :
    Retained entry (n + ops.countP Op.inserts) t := by
  induction ops generalizing s n with
  | nil =>
    obtain rfl := Option.some_inj.mp ht
    exact h
  | cons op ops ih =>
    obtain ⟨u, hu, ht⟩ := Option.bind_eq_some_iff.mp ht
    have hcount : n + (op :: ops).countP Op.inserts = (n + if op.inserts then 1 else 0) + ops.countP Op.inserts := by
      rw [List.countP_cons]
      omega
    rw [hcount] at hn ⊢
    exact ih (h.step hs (by omega) hu) (hs.step hu) hn ht

/-- **Every run keeps entries long enough.** The assertion holds in it, entries that are not marks are in the queue once,
the capacity is within its limits, and what was added is found for less than `minCapacity` insertions after it. -/
theorem run_retains (makeEntry : κ → Entry) (ops : List (Op κ)) :
    ∃ t, initial.run makeEntry ops = some t ∧ (∀ entry, entry ≠ MARK → t.queue.count entry ≤ 1) ∧
      (minCapacity ≤ t.capacity ∧ t.capacity ≤ maxCapacity) ∧
      ∀ before nameNonce after, ops = before ++ .add nameNonce :: after → after.countP Op.inserts < minCapacity →
        t.has makeEntry nameNonce = true := by
  obtain ⟨t, ht, hinv⟩ : ∃ t, initial.run makeEntry ops = some t ∧ Inv t := run_inv inv_initial ops
  refine ⟨t, ht, hinv.once, ⟨hinv.min_le, hinv.le_max⟩, ?_⟩
  rintro before nameNonce after rfl hafter
  rw [run_append] at ht
  obtain ⟨u, hu, hrest⟩ := Option.bind_eq_some_iff.mp ht
  obtain ⟨v, hv, hend⟩ := Option.bind_eq_some_iff.mp hrest
  obtain ⟨u', hu', huinv⟩ : ∃ u, initial.run makeEntry before = some u ∧ Inv u := run_inv inv_initial before
  obtain rfl := Option.some_inj.mp (hu'.symm.trans hu)
  have hcap : 0 < u'.capacity := lt_of_lt_of_le (by decide) huinv.min_le
  have hretained : Retained (makeEntry nameNonce) 0 v := retained_addEntry u' hcap hv
  have hfinal := hretained.run (huinv.step hv) (by omega) hend
  exact hfinal.hasEntry

end Runs

end DeadNonceList

end Ns3Ndn.Table
