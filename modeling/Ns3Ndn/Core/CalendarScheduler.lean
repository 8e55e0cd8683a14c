import Ns3Ndn.Core.Scheduler
import Ns3Ndn.Lib.Buckets

/-!
# The calendar scheduler

`core/model/calendar-scheduler.cc`: an array of buckets, each for the events of every `nBuckets`-th interval of length
`width`. A search goes through one year, from the bucket of the last event that was removed. It takes the first event
that is in the interval of its bucket, or else the least one of all.

* `Filed`, `Placed`: the events are in their buckets, and the search starts at the last event that was removed;
* **`run_agrees`**: the scheduler behaves as a list.
-/

namespace Ns3Ndn

open BucketLib

structure CalendarScheduler where
  reverse : Bool := false
  buckets : ℕ → List Event := fun _ => []
  nBuckets : ℕ := 2
  width : ℕ := 1
  lastBucket : ℕ := 0
  bucketTop : ℕ := 1
  lastPrio : ℕ := 0
  qSize : ℕ := 0

namespace CalendarScheduler

def nextEvent (reverse : Bool) (bucket : List Event) : Event := if reverse then bucket.getLastD {} else bucket.headD {}

def order (reverse : Bool) (a b : Event) : Bool := if reverse then b.key.lt a.key else a.key.lt b.key

def pop (reverse : Bool) (bucket : List Event) : List Event := if reverse then bucket.dropLast else bucket.tail

/-! ## Functions of the scheduler -/

variable (s : CalendarScheduler)

def hash (ts : ℕ) : ℕ := ts / s.width % s.nBuckets

def init (nBuckets width startPrio : ℕ) : CalendarScheduler :=
  { s with
    buckets := fun _ => []
    nBuckets := nBuckets
    width := width
    lastPrio := startPrio
    lastBucket := startPrio / width % nBuckets
    bucketTop := (startPrio / width + 1) * width % 2 ^ 64 }

def create (reverse : Bool) : CalendarScheduler := init { reverse := reverse } 2 1 0

def setBucket (i : ℕ) (bucket : List Event) : CalendarScheduler :=
  { s with buckets := Function.update s.buckets i bucket }

def doInsert (ev : Event) : CalendarScheduler :=
  s.setBucket (s.hash ev.key.ts) (insertBy (order s.reverse) (s.buckets (s.hash ev.key.ts)) ev)

def isEmpty : Bool := s.qSize == 0

inductive Search where
  /-- An event in the interval of its bucket. -/
  | found (i bucketTop : ℕ) (next : Event)
  /-- The least event of all and its bucket. -/
  | least (min : Event) (minBucket : Option ℕ)

/-- The loop of `PeekNext` and `DoRemoveNext`. It ends when it is back at the first bucket. -/
def search : (fuel i bucketTop : ℕ) → Event → Option ℕ → Search
  | 0, _, _, min, minBucket => .least min minBucket
  | fuel + 1, i, bucketTop, min, minBucket =>
    let next := nextEvent s.reverse (s.buckets i)
    let isLess := ! (s.buckets i).isEmpty && next.key.lt min.key
    if ! (s.buckets i).isEmpty && next.key.ts < bucketTop then .found i bucketTop next
    else if (i + 1) % s.nBuckets = s.lastBucket then
      .least (if isLess then next else min) (if isLess then some i else minBucket)
    else
      search fuel ((i + 1) % s.nBuckets) ((bucketTop + s.width) % 2 ^ 64) (if isLess then next else min)
        (if isLess then some i else minBucket)

/-- `PeekNext`, of a scheduler that is not empty. -/
def peekNext : Event :=
  match s.search s.nBuckets s.lastBucket s.bucketTop ⟨0, 2 ^ 64 - 1, 2 ^ 32 - 1, 0⟩ none with
  | .found _ _ next => next
  | .least min _ => min

/-- `DoRemoveNext`; `none` stands for the use of bucket -1. -/
def doRemoveNext : Option (Event × CalendarScheduler) :=
  match s.search s.nBuckets s.lastBucket s.bucketTop ⟨0, 2 ^ 64 - 1, 0, 0xffffffff⟩ none with
  | .found i bucketTop next =>
    some (next, { s.setBucket i (pop s.reverse (s.buckets i)) with
      lastBucket := i, lastPrio := next.key.ts, bucketTop := bucketTop })
  | .least _ none => none
  | .least min (some i) =>
    some (nextEvent s.reverse (s.buckets i), { s.setBucket i (pop s.reverse (s.buckets i)) with
      lastPrio := min.key.ts
      lastBucket := s.hash min.key.ts
      bucketTop := (min.key.ts / s.width + 1) * s.width % 2 ^ 64 })

/-- How many events `CalculateNewWidth` looks at. -/
def nSamples : ℕ := min (if s.qSize ≤ 5 then s.qSize else 5 + s.qSize / 10) 25

def takeSamples : ℕ → CalendarScheduler → Option (List Event × CalendarScheduler)
  | 0, s => some ([], s)
  | n + 1, s => do
    let (ev, s) ← s.doRemoveNext
    let (samples, s) ← takeSamples n s
    some (ev :: samples, s)

def separations (samples : List Event) : List ℕ :=
  List.zipWith (fun cur next => (next.key.ts + 2 ^ 64 - cur.key.ts) % 2 ^ 64) samples samples.tail

def widthOf (nSamples : ℕ) (samples : List Event) : ℕ :=
  let twiceAvg := (separations samples).sum % 2 ^ 64 / (nSamples - 1) * 2 % 2 ^ 64
  max (((separations samples).filter (· ≤ twiceAvg)).sum % 2 ^ 64 * 3 % 2 ^ 64) 1

/-- `CalculateNewWidth`, which takes the first events and puts them back. -/
def calculateNewWidth : Option (ℕ × CalendarScheduler) :=
  if s.qSize < 2 then some (1, s)
  else do
    let (samples, s') ← takeSamples s.nSamples s
    some (widthOf s.nSamples samples, { samples.foldl doInsert s' with
      lastBucket := s.lastBucket, bucketTop := s.bucketTop, lastPrio := s.lastPrio })

/-- `DoResize`. -/
def doResize (newSize newWidth : ℕ) : CalendarScheduler :=
  (stored s.nBuckets s.buckets).foldl doInsert (s.init newSize newWidth s.lastPrio)

def resize (newSize : ℕ) : Option CalendarScheduler := do
  let (newWidth, s) ← s.calculateNewWidth
  some (s.doResize newSize newWidth)

def resizeUp : Option CalendarScheduler :=
  if s.nBuckets * 2 < s.qSize ∧ s.nBuckets < 32768 then s.resize (s.nBuckets * 2) else some s

def resizeDown : Option CalendarScheduler :=
  if s.qSize < s.nBuckets / 2 then s.resize (s.nBuckets / 2) else some s

/-- Count one event more. -/
def incSize : CalendarScheduler := { s with qSize := (s.qSize + 1) % 2 ^ 32 }

/-- Count one event less. -/
def decSize : CalendarScheduler := { s with qSize := if s.qSize = 0 then 2 ^ 32 - 1 else s.qSize - 1 }

theorem qSize_incSize : s.incSize.qSize = (s.qSize + 1) % 2 ^ 32 := rfl

theorem qSize_decSize {s : CalendarScheduler} {n : ℕ} (h : s.qSize = n + 1) : s.decSize.qSize = n := by
  rw [decSize, h]
  rfl

theorem hash_congr {s s' : CalendarScheduler} (hwidth : s'.width = s.width) (hn : s'.nBuckets = s.nBuckets) (ts : ℕ) :
    s'.hash ts = s.hash ts := by
  rw [hash, hash, hwidth, hn]

def insert (ev : Event) : Option CalendarScheduler := (s.doInsert ev).incSize.resizeUp

def removeNext : Option (Event × CalendarScheduler) := do
  let (ev, s) ← s.doRemoveNext
  let s ← s.decSize.resizeDown
  some (ev, s)

def remove (ev : Event) : Option CalendarScheduler := do
  let e ← (s.buckets (s.hash ev.key.ts)).find? fun e => e.key.uid == ev.key.uid
  if e.impl = ev.impl then
    (s.setBucket (s.hash ev.key.ts)
      ((s.buckets (s.hash ev.key.ts)).eraseP fun e => e.key.uid == ev.key.uid)).decSize.resizeDown
  else none

/-- One call. -/
def apply (s : CalendarScheduler) : SchedulerOp → Option CalendarScheduler
  | .insert ev => s.insert ev
  | .removeNext => s.removeNext.map Prod.snd
  | .remove ev => s.remove ev

/-- A sequence of calls. -/
def run (reverse : Bool) (ops : List SchedulerOp) : Option CalendarScheduler := ops.foldlM apply (create reverse)

/-! ## One bucket -/

def InOrder (reverse : Bool) (a b : Event) : Prop := if reverse then b.rank ≤ a.rank else a.rank ≤ b.rank

theorem pairwise_insertBy_order {reverse : Bool} {bucket : List Event} (ev : Event)
    (h : bucket.Pairwise (InOrder reverse)) :
    (insertBy (order reverse) bucket ev).Pairwise (InOrder reverse) := by
  cases reverse with
  | true =>
    refine pairwise_insertBy ev h (fun hxy hyz => le_trans hyz hxy) (fun _ _ hx => ?_) fun _ _ hx => ?_
    · exact ((EventKey.lt_iff _ _).mp hx).le
    · exact not_lt.mp fun hlt => Bool.false_ne_true (hx.symm.trans ((EventKey.lt_iff _ _).mpr hlt))
  | false =>
    refine pairwise_insertBy ev h (fun hxy hyz => le_trans hxy hyz) (fun _ _ hx => ?_) fun _ _ hx => ?_
    · exact ((EventKey.lt_iff _ _).mp hx).le
    · exact not_lt.mp fun hlt => Bool.false_ne_true (hx.symm.trans ((EventKey.lt_iff _ _).mpr hlt))

theorem pop_perm {bucket : List Event} (reverse : Bool) (h : bucket ≠ []) :
    bucket.Perm (nextEvent reverse bucket :: pop reverse bucket) := by
  cases reverse with
  | true =>
    obtain ⟨l, e, rfl⟩ := (List.eq_nil_or_concat' bucket).resolve_left h
    simp [nextEvent, pop]
  | false =>
    obtain ⟨e, l, rfl⟩ := List.exists_cons_of_ne_nil h
    exact List.Perm.refl _

theorem pop_sublist (reverse : Bool) (bucket : List Event) : (pop reverse bucket).Sublist bucket := by
  cases reverse with
  | true => exact List.dropLast_sublist bucket
  | false => exact List.tail_sublist bucket

theorem nextEvent_mem {bucket : List Event} (reverse : Bool) (h : bucket ≠ []) : nextEvent reverse bucket ∈ bucket :=
  (pop_perm reverse h).mem_iff.mpr List.mem_cons_self

variable {e : Event}

/-- **The next event of a bucket is its least one.** -/
theorem nextEvent_le {reverse : Bool} {bucket : List Event} (h : bucket.Pairwise (InOrder reverse))
    (he : e ∈ bucket) : (nextEvent reverse bucket).rank ≤ e.rank := by
  cases reverse with
  | true =>
    obtain ⟨l, a, rfl⟩ := (List.eq_nil_or_concat' bucket).resolve_left (List.ne_nil_of_mem he)
    have hnext : nextEvent true (l ++ [a]) = a := by simp [nextEvent]
    rw [hnext]
    rcases List.mem_append.mp he with he | he
    · exact (List.pairwise_append.mp h).2.2 e he a List.mem_cons_self
    · rw [List.mem_singleton.mp he]
  | false =>
    obtain ⟨a, l, rfl⟩ := List.exists_cons_of_ne_nil (List.ne_nil_of_mem he)
    change a.rank ≤ e.rank
    rcases List.mem_cons.mp he with rfl | he
    · exact le_rfl
    · exact (List.pairwise_cons.mp h).1 e he

/-! ## All buckets -/

structure Filed (s : CalendarScheduler) (events : List Event) : Prop where
  nBuckets : 0 < s.nBuckets
  width : 0 < s.width
  width_lt : s.width < 2 ^ 64
  hash : ∀ i < s.nBuckets, ∀ e ∈ s.buckets i, s.hash e.key.ts = i
  order : ∀ i < s.nBuckets, (s.buckets i).Pairwise (InOrder s.reverse)
  perm : (stored s.nBuckets s.buckets).Perm events

/-- The search starts at an event before all others. -/
structure Placed (s : CalendarScheduler) (events : List Event) : Prop where
  lastBucket : s.lastBucket = s.hash s.lastPrio
  bucketTop : s.bucketTop = (s.lastPrio / s.width + 1) * s.width % 2 ^ 64
  times : ∀ e ∈ events, s.lastPrio ≤ e.key.ts ∧ e.key.ts < 2 ^ 63

variable {s} {events : List Event}

theorem Filed.hash_lt (h : Filed s events) (ts : ℕ) : s.hash ts < s.nBuckets := Nat.mod_lt _ h.nBuckets

theorem Filed.mem_bucket (h : Filed s events) (he : e ∈ events) : e ∈ s.buckets (s.hash e.key.ts) := by
  obtain ⟨i, hi, hmem⟩ := mem_stored.mp (h.perm.mem_iff.mpr he)
  rw [h.hash i hi e hmem]
  exact hmem

theorem Filed.mem_events (h : Filed s events) {i : ℕ} (hi : i < s.nBuckets) (he : e ∈ s.buckets i) :
    e ∈ events :=
  h.perm.mem_iff.mp (mem_stored.mpr ⟨i, hi, he⟩)

/-- **Filing an event.** -/
theorem Filed.doInsert (h : Filed s events) (ev : Event) : Filed (s.doInsert ev) (ev :: events) where
  nBuckets := h.nBuckets
  width := h.width
  width_lt := h.width_lt
  hash i hi e he := by
    by_cases hib : i = s.hash ev.key.ts
    · subst hib
      change e ∈ Function.update s.buckets _ _ _ at he
      rw [Function.update_self, (insertBy_perm _ _ _).mem_iff] at he
      rcases List.mem_cons.mp he with rfl | he
      · rfl
      · exact h.hash _ hi e he
    · change e ∈ Function.update s.buckets _ _ _ at he
      rw [Function.update_of_ne hib] at he
      exact h.hash i hi e he
  order i hi := by
    change (Function.update s.buckets _ _ _).Pairwise _
    by_cases hib : i = s.hash ev.key.ts
    · subst hib
      rw [Function.update_self]
      exact pairwise_insertBy_order ev (h.order _ hi)
    · rw [Function.update_of_ne hib]
      exact h.order i hi
  perm := (stored_update (h.hash_lt _) (insertBy_perm _ _ _)).trans (h.perm.cons ev)

/-- **Taking an event out of its bucket.** -/
theorem Filed.setBucket (h : Filed s events) {i : ℕ} (hi : i < s.nBuckets) {bucket rest : List Event}
    (hsub : bucket.Sublist (s.buckets i)) (hbucket : (s.buckets i).Perm (e :: bucket))
    (hevents : events.Perm (e :: rest)) : Filed (s.setBucket i bucket) rest where
  nBuckets := h.nBuckets
  width := h.width
  width_lt := h.width_lt
  hash j hj a ha := by
    change a ∈ Function.update s.buckets _ _ _ at ha
    by_cases hij : j = i
    · subst hij
      rw [Function.update_self] at ha
      exact h.hash j hj a (hsub.subset ha)
    · rw [Function.update_of_ne hij] at ha
      exact h.hash j hj a ha
  order j hj := by
    change (Function.update s.buckets _ _ _).Pairwise _
    by_cases hij : j = i
    · subst hij
      rw [Function.update_self]
      exact (h.order j hj).sublist hsub
    · rw [Function.update_of_ne hij]
      exact h.order j hj
  perm := by
    have hperm : (s.buckets i).Perm (e :: Function.update s.buckets i bucket i) := by
      rw [Function.update_self]
      exact hbucket
    have hback := stored_update hi hperm
    rw [Function.update_idem, Function.update_eq_self] at hback
    exact (hback.symm.trans (h.perm.trans hevents)).cons_inv

/-! ## The search -/

/-- **The ends of intervals wrap only where no event is.** -/
theorem lt_bucketTop_iff {w c ts : ℕ} (hw : 0 < w) (hw' : w < 2 ^ 64) (hts : ts < 2 ^ 63) (hc : c ≤ ts / w) :
    ts < (c + 1) * w % 2 ^ 64 ↔ ts / w = c := by
  constructor
  · intro hlt
    have hle : ts < (c + 1) * w := hlt.trans_le (Nat.mod_le _ _)
    have := (Nat.div_lt_iff_lt_mul hw).mpr hle
    omega
  · rintro rfl
    have hlow : ts / w * w ≤ ts := Nat.div_mul_le_self ts w
    have hhigh : ts < (ts / w + 1) * w := (Nat.div_lt_iff_lt_mul hw).mp (Nat.lt_succ_self _)
    have htop : (ts / w + 1) * w = ts / w * w + w := Nat.succ_mul _ _
    have hfit : (ts / w + 1) * w < 2 ^ 64 := by
      rcases Nat.lt_or_ge ts w with hlt | hge
      · rw [Nat.div_eq_of_lt hlt]
        omega
      · omega
    rw [Nat.mod_eq_of_lt hfit]
    exact hhigh

/-- The loop is back at the first bucket after all of them. -/
theorem succ_mod_eq_iff {n q k : ℕ} (hk : k < n) : ((q + k) % n + 1) % n = q % n ↔ k + 1 = n := by
  rw [Nat.mod_add_mod, Nat.add_assoc]
  constructor
  · intro h
    have hdvd : n ∣ k + 1 := by
      have hmod : q + (k + 1) ≡ q + 0 [MOD n] := h
      exact (Nat.modEq_zero_iff_dvd).mp (Nat.ModEq.add_left_cancel' q hmod)
    have := Nat.le_of_dvd (Nat.succ_pos k) hdvd
    omega
  · rintro rfl
    exact Nat.add_mod_right q (k + 1)

def Search.IsLeast (s : CalendarScheduler) (events : List Event) (r : Search) : Prop :=
  ∃ i < s.nBuckets, s.buckets i ≠ [] ∧ (∀ e ∈ events, (nextEvent s.reverse (s.buckets i)).rank ≤ e.rank) ∧
    (r = .found i (((nextEvent s.reverse (s.buckets i)).key.ts / s.width + 1) * s.width % 2 ^ 64)
        (nextEvent s.reverse (s.buckets i)) ∨
      r = .least (nextEvent s.reverse (s.buckets i)) (some i))

structure Seen (s : CalendarScheduler) (start : Event) (k : ℕ) (min : Event) (minBucket : Option ℕ) : Prop where
  le : ∀ j < k, ∀ e ∈ s.buckets ((s.lastPrio / s.width + j) % s.nBuckets), min.rank ≤ e.rank
  bucket : (min = start ∧ minBucket = none) ∨
    ∃ i < s.nBuckets, s.buckets i ≠ [] ∧ min = nextEvent s.reverse (s.buckets i) ∧ minBucket = some i

variable {minBucket : Option ℕ}

/-- **One turn of the loop** keeps the least event. -/
theorem Seen.succ {start min : Event} {k : ℕ} (hf : Filed s events)
    (h : Seen s start k min minBucket) {i : ℕ} (hi : i = (s.lastPrio / s.width + k) % s.nBuckets) {isLess : Bool}
    (hless : isLess = (! (s.buckets i).isEmpty && (nextEvent s.reverse (s.buckets i)).key.lt min.key)) :
    Seen s start (k + 1) (if isLess then nextEvent s.reverse (s.buckets i) else min)
      (if isLess then some i else minBucket) := by
  have hlt : i < s.nBuckets := hi ▸ Nat.mod_lt _ hf.nBuckets
  have hnext : ∀ e ∈ s.buckets i, (nextEvent s.reverse (s.buckets i)).rank ≤ e.rank :=
    fun e he => nextEvent_le (hf.order i hlt) he
  cases isLess with
  | true =>
    obtain ⟨hne, hkey⟩ := Bool.and_eq_true_iff.mp hless.symm
    rw [EventKey.lt_iff] at hkey
    refine ⟨fun j hj e he => ?_, .inr ⟨i, hlt, ?_, rfl, rfl⟩⟩
    · rcases Nat.lt_succ_iff_lt_or_eq.mp hj with hj | rfl
      · exact hkey.le.trans (h.le j hj e he)
      · exact hnext e (hi ▸ he)
    · simpa using hne
  | false =>
    refine ⟨fun j hj e he => ?_, h.bucket⟩
    rcases Nat.lt_succ_iff_lt_or_eq.mp hj with hj | rfl
    · exact h.le j hj e he
    · rw [← hi] at he
      have hne : (s.buckets i).isEmpty = false := by
        rw [List.isEmpty_eq_false_iff]
        exact List.ne_nil_of_mem he
      rw [hne] at hless
      have hge : ¬ (nextEvent s.reverse (s.buckets i)).rank < min.rank := by
        rw [← EventKey.lt_iff]
        intro htrue
        rw [htrue] at hless
        cases hless
      exact (not_lt.mp hge).trans (hnext e he)

theorem Seen.isLeast {start min : Event} (hf : Filed s events) (hp : Placed s events)
    (hne : events ≠ []) (hstart : ∀ e ∈ events, e.rank < start.rank) (h : Seen s start s.nBuckets min minBucket) :
    (Search.least min minBucket).IsLeast s events := by
  have hall : ∀ e ∈ events, min.rank ≤ e.rank := by
    intro e he
    obtain ⟨m, hm⟩ := Nat.exists_eq_add_of_le (Nat.div_le_div_right (hp.times e he).1 (c := s.width))
    have hbucket : s.hash e.key.ts = (s.lastPrio / s.width + m % s.nBuckets) % s.nBuckets := by
      rw [CalendarScheduler.hash, hm, Nat.add_mod_mod]
    refine h.le (m % s.nBuckets) (Nat.mod_lt _ hf.nBuckets) e ?_
    rw [← hbucket]
    exact hf.mem_bucket he
  rcases h.bucket with ⟨rfl, -⟩ | ⟨i, hi, hbucket, rfl, rfl⟩
  · obtain ⟨e, he⟩ := List.exists_mem_of_ne_nil events hne
    exact absurd (hstart e he) (hall e he).not_gt
  · exact ⟨i, hi, hbucket, hall, .inr rfl⟩

/-- **What the loop finds** from turn `k` on, if all events are in later intervals. -/
theorem isLeast_search {start : Event} (hf : Filed s events) (hp : Placed s events) (hne : events ≠ [])
    (hstart : ∀ e ∈ events, e.rank < start.rank) {fuel k i bucketTop : ℕ} {min : Event}
    (hk : k < s.nBuckets) (hfuel : s.nBuckets = k + fuel) (hi : i = (s.lastPrio / s.width + k) % s.nBuckets)
    (htop : bucketTop = (s.lastPrio / s.width + k + 1) * s.width % 2 ^ 64)
    (hlater : ∀ e ∈ events, s.lastPrio / s.width + k ≤ e.key.ts / s.width) (hseen : Seen s start k min minBucket) :
    (s.search fuel i bucketTop min minBucket).IsLeast s events := by
  induction fuel generalizing k i bucketTop min minBucket with
  | zero => omega
  | succ fuel ih =>
    have hlt : i < s.nBuckets := hi ▸ Nat.mod_lt _ hf.nBuckets
    have hnext : ∀ e ∈ s.buckets i, (nextEvent s.reverse (s.buckets i)).rank ≤ e.rank :=
      fun e he => nextEvent_le (hf.order i hlt) he
    -- the events of this interval are in this bucket
    have hmem : ∀ e ∈ events, e.key.ts / s.width = s.lastPrio / s.width + k → e ∈ s.buckets i := by
      intro e he heq
      have hbucket := hf.mem_bucket he
      rw [CalendarScheduler.hash, heq, ← hi] at hbucket
      exact hbucket
    have hiff : ∀ e ∈ events, e.key.ts < bucketTop ↔ e.key.ts / s.width = s.lastPrio / s.width + k := by
      intro e he
      rw [htop]
      exact lt_bucketTop_iff hf.width hf.width_lt (hp.times e he).2 (hlater e he)
    have hskip : (! (s.buckets i).isEmpty && decide ((nextEvent s.reverse (s.buckets i)).key.ts < bucketTop)) = false →
        ∀ e ∈ events, s.lastPrio / s.width + (k + 1) ≤ e.key.ts / s.width := by
      intro hnot e he
      rcases (hlater e he).eq_or_lt with hsame | hgt
      · have hbucket := hmem e he hsame.symm
        have hin := hf.mem_events hlt (nextEvent_mem s.reverse (List.ne_nil_of_mem hbucket))
        have hts : (nextEvent s.reverse (s.buckets i)).key.ts ≤ e.key.ts := by
          have hle := hnext e hbucket
          rw [Event.rank, Event.rank, Prod.Lex.toLex_le_toLex] at hle
          omega
        have hinterval : (nextEvent s.reverse (s.buckets i)).key.ts / s.width = s.lastPrio / s.width + k := by
          have := hlater _ hin
          have := Nat.div_le_div_right hts (c := s.width)
          omega
        have htrue := (hiff _ hin).mpr hinterval
        simp [List.ne_nil_of_mem hbucket, htrue] at hnot
      · omega
    rw [search]
    split
    case isTrue hfound =>
      rw [Bool.and_eq_true_iff, decide_eq_true_eq] at hfound
      have hbucket : s.buckets i ≠ [] := by simpa using hfound.1
      have hin := hf.mem_events hlt (nextEvent_mem s.reverse hbucket)
      have heq := (hiff _ hin).mp hfound.2
      refine ⟨i, hlt, hbucket, fun e he => ?_, .inl ?_⟩
      · rcases (hlater e he).eq_or_lt with hsame | hgt
        · exact hnext e (hmem e he hsame.symm)
        · have hts : (nextEvent s.reverse (s.buckets i)).key.ts < e.key.ts := by
            refine lt_of_not_ge fun hge => ?_
            have := Nat.div_le_div_right hge (c := s.width)
            omega
          rw [Event.rank, Event.rank, Prod.Lex.toLex_le_toLex]
          exact .inl hts
      · rw [heq, htop]
    case isFalse hfound =>
      have hend := hseen.succ hf hi rfl
      rw [hp.lastBucket, CalendarScheduler.hash]
      split
      case isTrue hlast =>
        rw [hi, succ_mod_eq_iff hk] at hlast
        rw [hlast] at hend
        exact hend.isLeast hf hp hne hstart
      case isFalse hlast =>
        rw [hi, succ_mod_eq_iff hk] at hlast
        refine ih (k := k + 1) ?_ ?_ ?_ ?_ (hskip (Bool.eq_false_iff.mpr hfound)) hend
        · omega
        · omega
        · rw [hi, Nat.mod_add_mod, Nat.add_assoc]
        · rw [htop, Nat.mod_add_mod, ← Nat.succ_mul]
          rfl

theorem isLeast_search_start (start : Event) (hf : Filed s events) (hp : Placed s events) (hne : events ≠ [])
    (hstart : ∀ e ∈ events, e.rank < start.rank) :
    (s.search s.nBuckets s.lastBucket s.bucketTop start none).IsLeast s events := by
  refine isLeast_search hf hp hne hstart (k := 0) hf.nBuckets (Nat.zero_add _).symm hp.lastBucket hp.bucketTop ?_ ?_
  · exact fun e he => Nat.div_le_div_right (hp.times e he).1
  · exact ⟨fun j hj => absurd hj (Nat.not_lt_zero j), .inl ⟨rfl, rfl⟩⟩

theorem Placed.rank_lt (hp : Placed s events) {e start : Event} (he : e ∈ events)
    (hstart : start.key.ts = 2 ^ 64 - 1) : e.rank < start.rank := by
  have hts := (hp.times e he).2
  rw [Event.rank, Event.rank, Prod.Lex.toLex_lt_toLex]
  refine .inl ?_
  change e.key.ts < start.key.ts
  omega

/-- **`PeekNext` gives the least event.** -/
theorem peekNext_eq (hf : Filed s events) (hp : Placed s events) (hs : ListScheduler.Sorted events)
    (hne : events ≠ []) : s.peekNext = ListScheduler.peekNext events := by
  obtain ⟨i, hi, hbucket, hleast, hr⟩ :=
    isLeast_search_start ⟨0, 2 ^ 64 - 1, 2 ^ 32 - 1, 0⟩ hf hp hne fun e he => hp.rank_lt he rfl
  have hnext := hs.eq_peekNext (hf.mem_events hi (nextEvent_mem s.reverse hbucket)) hleast
  rw [peekNext]
  rcases hr with hr | hr
  · rw [hr]
    exact hnext
  · rw [hr]
    exact hnext

def taken (s : CalendarScheduler) (i : ℕ) (e : Event) : CalendarScheduler :=
  { s.setBucket i (pop s.reverse (s.buckets i)) with
    lastPrio := e.key.ts
    lastBucket := s.hash e.key.ts
    bucketTop := (e.key.ts / s.width + 1) * s.width % 2 ^ 64 }

/-- **`DoRemoveNext` takes the least event**, and no bucket -1 is used. -/
theorem doRemoveNext_eq {rest : List Event} (hf : Filed s (e :: rest)) (hp : Placed s (e :: rest))
    (hs : ListScheduler.Sorted (e :: rest)) :
    ∃ i, s.doRemoveNext = some (e, s.taken i e) ∧ Filed (s.taken i e) rest ∧ Placed (s.taken i e) rest := by
  obtain ⟨i, hi, hbucket, hleast, hr⟩ :=
    isLeast_search_start ⟨0, 2 ^ 64 - 1, 0, 0xffffffff⟩ hf hp (List.cons_ne_nil e rest)
      fun e he => hp.rank_lt he rfl
  have hmem := nextEvent_mem s.reverse hbucket
  have hnext : nextEvent s.reverse (s.buckets i) = e := hs.eq_peekNext (hf.mem_events hi hmem) hleast
  have hhash : s.hash e.key.ts = i := hf.hash i hi e (hnext ▸ hmem)
  have hperm : (s.buckets i).Perm (e :: pop s.reverse (s.buckets i)) := hnext ▸ pop_perm s.reverse hbucket
  have hfiled := hf.setBucket hi (pop_sublist s.reverse _) hperm (List.Perm.refl _)
  refine ⟨i, ?_, ⟨hfiled.nBuckets, hfiled.width, hfiled.width_lt, hfiled.hash, hfiled.order, hfiled.perm⟩,
    rfl, rfl, fun a ha => ⟨?_, (hp.times a (List.mem_cons_of_mem e ha)).2⟩⟩
  · rw [doRemoveNext]
    rcases hr with hr | hr
    · rw [hr, taken, hnext, hhash]
    · rw [hr, hnext]
      change some (nextEvent s.reverse (s.buckets i), s.taken i e) = some (e, s.taken i e)
      rw [hnext]
  · have hlt := (List.pairwise_cons.mp hs.rank).1 a ha
    rw [Event.rank, Event.rank, Prod.Lex.toLex_lt_toLex] at hlt
    change e.key.ts ≤ a.key.ts
    omega

/-! ## Resizing -/

theorem foldl_doInsert_eq (l : List Event) (s : CalendarScheduler) :
    ∃ buckets, l.foldl doInsert s = { s with buckets := buckets } := by
  induction l generalizing s with
  | nil => exact ⟨s.buckets, rfl⟩
  | cons e l ih =>
    obtain ⟨buckets, heq⟩ := ih (s.doInsert e)
    exact ⟨buckets, heq⟩

theorem Filed.foldl_doInsert (h : Filed s events) (l : List Event) :
    Filed (l.foldl CalendarScheduler.doInsert s) (l ++ events) := by
  induction l generalizing s events with
  | nil => exact h
  | cons e l ih =>
    have hrest := ih (h.doInsert e)
    exact ⟨hrest.nBuckets, hrest.width, hrest.width_lt, hrest.hash, hrest.order,
      hrest.perm.trans List.perm_middle⟩

/-- **Taking samples** takes the first events. -/
theorem takeSamples_eq {n : ℕ} (hf : Filed s events) (hp : Placed s events) (hs : ListScheduler.Sorted events)
    (hn : n ≤ events.length) :
    ∃ s', takeSamples n s = some (events.take n, s') ∧ Filed s' (events.drop n) ∧ s'.reverse = s.reverse ∧
      s'.nBuckets = s.nBuckets ∧ s'.width = s.width ∧ s'.qSize = s.qSize := by
  induction n generalizing s events with
  | zero => exact ⟨s, rfl, hf, rfl, rfl, rfl, rfl⟩
  | succ n ih =>
    cases events with
    | nil => exact absurd hn (Nat.not_succ_le_zero n)
    | cons e rest =>
      obtain ⟨i, heq, hf', hp'⟩ := doRemoveNext_eq hf hp hs
      have hs' : ListScheduler.Sorted rest :=
        ⟨(List.pairwise_cons.mp hs.rank).2, (List.nodup_cons.mp hs.uid).2⟩
      obtain ⟨s', heq', hrest⟩ := ih hf' hp' hs' (Nat.le_of_succ_le_succ hn)
      refine ⟨s', ?_, hrest⟩
      rw [takeSamples, heq]
      change (takeSamples n (s.taken i e)).bind _ = _
      rw [heq']
      rfl

theorem widthOf_bounds (n : ℕ) (samples : List Event) : 0 < widthOf n samples ∧ widthOf n samples < 2 ^ 64 := by
  rw [widthOf]
  omega

theorem nSamples_le : s.nSamples ≤ s.qSize := by
  rw [nSamples]
  split_ifs <;> omega

/-- **A new width**: it is not 0, and the events are as before. -/
theorem calculateNewWidth_eq (hf : Filed s events) (hp : Placed s events) (hs : ListScheduler.Sorted events)
    (hq : s.qSize = events.length) :
    ∃ w buckets, s.calculateNewWidth = some (w, { s with buckets := buckets }) ∧
      Filed { s with buckets := buckets } events ∧ 0 < w ∧ w < 2 ^ 64 := by
  rw [calculateNewWidth]
  split_ifs with hsize
  · exact ⟨1, s.buckets, rfl, hf, by omega, by omega⟩
  · obtain ⟨s', heq, hf', hreverse, hnBuckets, hwidth, hqSize⟩ := takeSamples_eq hf hp hs (hq ▸ nSamples_le)
    obtain ⟨buckets, hbuckets⟩ := foldl_doInsert_eq (events.take s.nSamples) s'
    have hback := hf'.foldl_doInsert (events.take s.nSamples)
    rw [List.take_append_drop, hbuckets] at hback
    have hstate : { s' with
        buckets := buckets
        lastBucket := s.lastBucket
        bucketTop := s.bucketTop
        lastPrio := s.lastPrio } = { s with buckets := buckets } := by
      rw [hreverse, hnBuckets, hwidth, hqSize]
    refine ⟨widthOf s.nSamples (events.take s.nSamples), buckets, ?_, ?_, widthOf_bounds _ _⟩
    · rw [heq]
      change some (_, { (events.take s.nSamples).foldl doInsert s' with
        lastBucket := s.lastBucket, bucketTop := s.bucketTop, lastPrio := s.lastPrio }) = _
      rw [hbuckets, ← hstate]
    · rw [← hstate]
      exact ⟨hback.nBuckets, hback.width, hback.width_lt, hback.hash, hback.order, hback.perm⟩

theorem filed_init {n w : ℕ} (startPrio : ℕ) (hn : 0 < n) (hw : 0 < w) (hw' : w < 2 ^ 64) :
    Filed (s.init n w startPrio) [] where
  nBuckets := hn
  width := hw
  width_lt := hw'
  hash i hi e he := absurd he List.not_mem_nil
  order i hi := List.Pairwise.nil
  perm := by
    rw [stored]
    change ((List.range n).flatMap fun _ => []).Perm []
    simp

/-- **Resizing keeps the events** and the place where the search starts. -/
theorem resize_eq {n : ℕ} (hf : Filed s events) (hp : Placed s events) (hs : ListScheduler.Sorted events)
    (hq : s.qSize = events.length) (hn : 0 < n) :
    ∃ s', s.resize n = some s' ∧ Filed s' events ∧ Placed s' events ∧ s'.lastPrio = s.lastPrio ∧
      s'.qSize = s.qSize := by
  obtain ⟨w, buckets, heq, hf', hw, hw'⟩ := calculateNewWidth_eq hf hp hs hq
  let t : CalendarScheduler := { s with buckets := buckets }
  obtain ⟨buckets', hbuckets'⟩ := foldl_doInsert_eq (stored t.nBuckets t.buckets) (t.init n w t.lastPrio)
  have hnew := (filed_init (s := t) t.lastPrio hn hw hw').foldl_doInsert (stored t.nBuckets t.buckets)
  refine ⟨t.doResize n w, ?_, ?_, ?_⟩
  · rw [resize, heq]
    rfl
  · exact ⟨hnew.nBuckets, hnew.width, hnew.width_lt, hnew.hash, hnew.order,
      hnew.perm.trans ((List.append_nil _).symm ▸ hf'.perm)⟩
  · rw [doResize, hbuckets']
    exact ⟨⟨rfl, rfl, hp.times⟩, rfl, rfl⟩

/-! ## Runs -/

def lastFrom : List Event → ℕ → List SchedulerOp → ℕ
  | _, last, [] => last
  | events, last, op :: ops =>
    lastFrom (ListScheduler.apply events op)
      (if op = .removeNext then (ListScheduler.peekNext events).key.ts else last) ops

def lastRemoved (ops : List SchedulerOp) : ℕ := lastFrom [] 0 ops

theorem lastFrom_concat (events : List Event) (last : ℕ) (ops : List SchedulerOp) (op : SchedulerOp) :
    lastFrom events last (ops ++ [op]) = if op = .removeNext then
      (ListScheduler.peekNext (ops.foldl ListScheduler.apply events)).key.ts else lastFrom events last ops := by
  induction ops generalizing events last with
  | nil => rfl
  | cons op' ops ih => exact ih _ _

/-- When a call may be made: no event is before the last one that was removed, its time is below `2 ^ 63`, and its
number is a 32-bit one that is not 0. -/
def Accepts (ops : List SchedulerOp) : SchedulerOp → Prop
  | .insert ev => lastRemoved ops ≤ ev.key.ts ∧ ev.key.ts < 2 ^ 63 ∧ 0 < ev.key.uid ∧ ev.key.uid < 2 ^ 32
  | _ => True

instance (ops : List SchedulerOp) (op : SchedulerOp) : Decidable (Accepts ops op) :=
  match op with
  | .insert _ | .removeNext | .remove _ => by unfold Accepts; infer_instance

structure Agrees (s : CalendarScheduler) (events : List Event) : Prop where
  stored : (stored s.nBuckets s.buckets).Perm events
  isEmpty : s.isEmpty = ListScheduler.isEmpty events
  peekNext : events ≠ [] → s.peekNext = ListScheduler.peekNext events
  removeNext : events ≠ [] → ∃ s', s.removeNext = some (ListScheduler.peekNext events, s')
  width : 0 < s.width

/-- **The invariant.** -/
structure Inv (s : CalendarScheduler) (events : List Event) (last : ℕ) : Prop where
  filed : Filed s events
  placed : Placed s events
  sorted : ListScheduler.Sorted events
  uids : ∀ e ∈ events, 0 < e.key.uid ∧ e.key.uid < 2 ^ 32
  lastPrio : s.lastPrio = last
  qSize : s.qSize = events.length

theorem Filed.of_perm {events' : List Event} (h : Filed s events) (hperm : events.Perm events') : Filed s events' :=
  ⟨h.nBuckets, h.width, h.width_lt, h.hash, h.order, h.perm.trans hperm⟩

theorem length_lt (hs : ListScheduler.Sorted events) (huids : ∀ e ∈ events, 0 < e.key.uid ∧ e.key.uid < 2 ^ 32) :
    events.length < 2 ^ 32 := by
  have hsub : (events.map fun e => e.key.uid).toFinset ⊆ Finset.Ioo 0 (2 ^ 32) := by
    intro uid huid
    obtain ⟨e, he, rfl⟩ := List.mem_map.mp (List.mem_toFinset.mp huid)
    exact Finset.mem_Ioo.mpr (huids e he)
  have hcard := Finset.card_le_card hsub
  rw [List.toFinset_card_of_nodup hs.uid, List.length_map, Nat.card_Ioo] at hcard
  omega

theorem Filed.congr {s' : CalendarScheduler} (h : Filed s events) (hreverse : s'.reverse = s.reverse)
    (hbuckets : s'.buckets = s.buckets) (hwidth : s'.width = s.width) (hn : s'.nBuckets = s.nBuckets) :
    Filed s' events := by
  constructor
  case nBuckets => exact hn ▸ h.nBuckets
  case width => exact hwidth ▸ h.width
  case width_lt => exact hwidth ▸ h.width_lt
  case hash =>
    intro i hi e he
    rw [hash_congr hwidth hn]
    exact h.hash i (hn ▸ hi) e (hbuckets ▸ he)
  case order =>
    rw [hn, hbuckets, hreverse]
    exact h.order
  case perm =>
    rw [hn, hbuckets]
    exact h.perm

theorem Placed.congr {s' : CalendarScheduler} (h : Placed s events) (hlastBucket : s'.lastBucket = s.lastBucket)
    (hbucketTop : s'.bucketTop = s.bucketTop) (hlastPrio : s'.lastPrio = s.lastPrio) (hwidth : s'.width = s.width)
    (hn : s'.nBuckets = s.nBuckets) : Placed s' events := by
  constructor
  case lastBucket => rw [hlastBucket, hlastPrio, hash_congr hwidth hn, h.lastBucket]
  case bucketTop => rw [hbucketTop, hlastPrio, hwidth, h.bucketTop]
  case times =>
    rw [hlastPrio]
    exact h.times

namespace Inv

variable {last : ℕ}

theorem resizeUp (h : Inv s events last) : ∃ s', s.resizeUp = some s' ∧ Inv s' events last := by
  rw [CalendarScheduler.resizeUp]
  split_ifs
  · have hn : 0 < s.nBuckets * 2 := Nat.mul_pos h.filed.nBuckets Nat.two_pos
    obtain ⟨s', heq, hfiled, hplaced, hlast, hsize⟩ := resize_eq h.filed h.placed h.sorted h.qSize hn
    exact ⟨s', heq, hfiled, hplaced, h.sorted, h.uids, hlast.trans h.lastPrio, hsize.trans h.qSize⟩
  · exact ⟨s, rfl, h⟩

theorem resizeDown (h : Inv s events last) : ∃ s', s.resizeDown = some s' ∧ Inv s' events last := by
  rw [CalendarScheduler.resizeDown]
  split_ifs with hsmall
  · obtain ⟨s', heq, hfiled, hplaced, hlast, hsize⟩ :=
      resize_eq h.filed h.placed h.sorted h.qSize (Nat.zero_lt_of_lt hsmall)
    exact ⟨s', heq, hfiled, hplaced, h.sorted, h.uids, hlast.trans h.lastPrio, hsize.trans h.qSize⟩
  · exact ⟨s, rfl, h⟩

theorem insert (h : Inv s events last) {ev : Event} (hop : ListScheduler.Admits events (.insert ev))
    (hlast : last ≤ ev.key.ts) (hts : ev.key.ts < 2 ^ 63) (huid : 0 < ev.key.uid ∧ ev.key.uid < 2 ^ 32) :
    ∃ s', s.insert ev = some s' ∧ Inv s' (ListScheduler.insert events ev) last := by
  have hperm := ListScheduler.insert_perm events ev
  have hsorted : ListScheduler.Sorted (ListScheduler.insert events ev) := h.sorted.apply hop
  have huids : ∀ e ∈ ListScheduler.insert events ev, 0 < e.key.uid ∧ e.key.uid < 2 ^ 32 := by
    intro e he
    rcases List.mem_cons.mp (hperm.mem_iff.mp he) with rfl | he
    · exact huid
    · exact h.uids e he
  have hlen := length_lt hsorted huids
  have hfiled := (h.filed.doInsert ev).of_perm hperm.symm
  have hplaced : Placed (s.doInsert ev) (ListScheduler.insert events ev) := by
    refine ⟨h.placed.lastBucket, h.placed.bucketTop, fun e he => ?_⟩
    rcases List.mem_cons.mp (hperm.mem_iff.mp he) with rfl | he
    · exact ⟨h.lastPrio.trans_le hlast, hts⟩
    · exact h.placed.times e he
  have hsize : (s.doInsert ev).qSize = s.qSize := rfl
  refine resizeUp ⟨hfiled.congr rfl rfl rfl rfl, hplaced.congr rfl rfl rfl rfl rfl, hsorted, huids, h.lastPrio, ?_⟩
  rw [hperm.length_eq, List.length_cons] at hlen ⊢
  rw [qSize_incSize, hsize, h.qSize, Nat.mod_eq_of_lt hlen]

theorem decSize {s' : CalendarScheduler} {rest : List Event} {last' : ℕ} (h : Inv s events last) (hfiled : Filed s' rest)
    (hplaced : Placed s' rest) (hsorted : ListScheduler.Sorted rest) (hsub : ∀ e ∈ rest, e ∈ events)
    (hlast : s'.lastPrio = last') (hsize : s'.qSize = s.qSize) (hlen : events.length = rest.length + 1) :
    Inv s'.decSize rest last' where
  filed := hfiled.congr rfl rfl rfl rfl
  placed := hplaced.congr rfl rfl rfl rfl rfl
  sorted := hsorted
  uids e he := h.uids e (hsub e he)
  lastPrio := hlast
  qSize := qSize_decSize (by rw [hsize, h.qSize, hlen])

theorem removeNext {e : Event} {rest : List Event} (h : Inv s (e :: rest) last) :
    ∃ s', s.removeNext = some (e, s') ∧ Inv s' rest e.key.ts := by
  obtain ⟨i, heq, hfiled, hplaced⟩ := doRemoveNext_eq h.filed h.placed h.sorted
  have hsorted : ListScheduler.Sorted rest :=
    ⟨(List.pairwise_cons.mp h.sorted.rank).2, (List.nodup_cons.mp h.sorted.uid).2⟩
  have hinv := h.decSize hfiled hplaced hsorted (fun a ha => List.mem_cons_of_mem e ha) rfl rfl rfl
  obtain ⟨s', heq', hinv'⟩ := hinv.resizeDown
  refine ⟨s', ?_, hinv'⟩
  rw [CalendarScheduler.removeNext, heq]
  change (s.taken i e).decSize.resizeDown.bind _ = _
  rw [heq']
  rfl

section

variable (h : Inv s events last)

include h

theorem uid_nodup {i : ℕ} (hi : i < s.nBuckets) : ((s.buckets i).map fun e => e.key.uid).Nodup := by
  have hall : ((BucketLib.stored s.nBuckets s.buckets).map fun e => e.key.uid).Nodup :=
    (h.filed.perm.map fun e => e.key.uid).nodup_iff.mpr h.sorted.uid
  exact hall.sublist ((sublist_stored s.buckets hi).map _)

theorem find?_eq_some {ev : Event} (hev : ev ∈ events) :
    ((s.buckets (s.hash ev.key.ts)).find? fun e => e.key.uid == ev.key.uid) = some ev :=
  (find?_key_eq_some_iff (h.uid_nodup (h.filed.hash_lt _))).mpr ⟨h.filed.mem_bucket hev, rfl⟩

theorem remove {ev : Event} (hev : ev ∈ events) :
    ∃ s', s.remove ev = some s' ∧ Inv s' (ListScheduler.remove events ev) last := by
  have hperm := ListScheduler.remove_perm hev h.sorted.uid
  have hbucket := ListScheduler.remove_perm (h.filed.mem_bucket hev) (h.uid_nodup (h.filed.hash_lt _))
  have hfiled := h.filed.setBucket (h.filed.hash_lt _) List.eraseP_sublist hbucket hperm
  have hsub : ∀ e ∈ ListScheduler.remove events ev, e ∈ events := fun e he => List.mem_of_mem_eraseP he
  have hadmits : ListScheduler.Admits events (.remove ev) := hev
  have hplaced : Placed (s.setBucket (s.hash ev.key.ts) (ListScheduler.remove (s.buckets (s.hash ev.key.ts)) ev))
      (ListScheduler.remove events ev) :=
    ⟨h.placed.lastBucket, h.placed.bucketTop, fun e he => h.placed.times e (hsub e he)⟩
  have hinv := h.decSize hfiled hplaced (h.sorted.apply hadmits) hsub h.lastPrio rfl hperm.length_eq
  obtain ⟨s', heq, hinv'⟩ := hinv.resizeDown
  refine ⟨s', ?_, hinv'⟩
  rw [CalendarScheduler.remove, h.find?_eq_some hev]
  change (if ev.impl = ev.impl then _ else none) = some s'
  rw [if_pos rfl]
  exact heq

theorem isEmpty : s.isEmpty = ListScheduler.isEmpty events := by
  rw [CalendarScheduler.isEmpty, h.qSize]
  cases events <;> rfl

theorem agrees : Agrees s events where
  stored := h.filed.perm
  isEmpty := h.isEmpty
  peekNext hne := peekNext_eq h.filed h.placed h.sorted hne
  removeNext hne := by
    obtain ⟨e, rest, rfl⟩ := List.exists_cons_of_ne_nil hne
    obtain ⟨s', heq, -⟩ := h.removeNext
    exact ⟨s', heq⟩
  width := h.filed.width

end

theorem create (reverse : Bool) : Inv (create reverse) [] 0 where
  filed := filed_init 0 Nat.two_pos Nat.one_pos (by decide)
  placed := ⟨rfl, rfl, fun e he => absurd he List.not_mem_nil⟩
  sorted := ⟨List.Pairwise.nil, List.nodup_nil⟩
  uids e he := absurd he List.not_mem_nil
  lastPrio := rfl
  qSize := rfl

/-- **One call keeps the invariant.** -/
theorem apply (h : Inv s events last) {op : SchedulerOp} (hop : ListScheduler.Admits events op)
    (hins : ∀ ev, op = .insert ev →
      last ≤ ev.key.ts ∧ ev.key.ts < 2 ^ 63 ∧ 0 < ev.key.uid ∧ ev.key.uid < 2 ^ 32) :
    ∃ s', s.apply op = some s' ∧ Inv s' (ListScheduler.apply events op)
      (if op = .removeNext then (ListScheduler.peekNext events).key.ts else last) := by
  cases op with
  | insert ev =>
    obtain ⟨hlast, hts, huid⟩ := hins ev rfl
    exact h.insert hop hlast hts huid
  | removeNext =>
    obtain ⟨e, rest, rfl⟩ := List.exists_cons_of_ne_nil hop
    obtain ⟨s', heq, hinv⟩ := h.removeNext
    refine ⟨s', ?_, hinv⟩
    rw [CalendarScheduler.apply, heq]
    rfl
  | remove ev => exact h.remove hop

end Inv

/-- **The invariant holds in every run.** -/
theorem inv_run (reverse : Bool) {ops : List SchedulerOp} (hops : ListScheduler.Admitted ops)
    (haccepts : ∀ pre op, pre ++ [op] <+: ops → Accepts pre op) :
    ∃ s, run reverse ops = some s ∧ Inv s (ListScheduler.run ops) (lastRemoved ops) := by
  induction ops using List.reverseRecOn with
  | nil => exact ⟨create reverse, rfl, Inv.create reverse⟩
  | append_singleton ops op ih =>
    obtain ⟨hadmitted, hadmits⟩ := hops.of_concat
    have hpre : ops <+: ops ++ [op] := List.prefix_append _ _
    obtain ⟨s, heq, hinv⟩ := ih hadmitted fun pre op' hop => haccepts pre op' (hop.trans hpre)
    have hlast := haccepts ops op (List.prefix_refl _)
    obtain ⟨s', heq', hinv'⟩ := hinv.apply hadmits fun ev hev => by
      rw [hev] at hlast
      exact hlast
    refine ⟨s', ?_, ?_⟩
    · rw [run, List.foldlM_append, ← run, heq]
      change (s.apply op).bind _ = _
      rw [heq']
      rfl
    · rw [ListScheduler.run_concat, lastRemoved, lastFrom_concat]
      exact hinv'

/-- **The scheduler behaves as a list** in every run in which no event is before the last one that was removed. -/
theorem run_agrees (reverse : Bool) {ops : List SchedulerOp} (hops : ListScheduler.Admitted ops)
    (haccepts : ∀ pre op, pre ++ [op] <+: ops → Accepts pre op) :
    ∃ s, run reverse ops = some s ∧ Agrees s (ListScheduler.run ops) := by
  obtain ⟨s, heq, hinv⟩ := inv_run reverse hops haccepts
  exact ⟨s, heq, hinv.agrees⟩

/-- Five events make four buckets, and the removal of four of them makes two again. -/
def fiveEvents : List SchedulerOp :=
  [.insert ⟨1, 30, 4, 0⟩, .insert ⟨2, 10, 5, 0⟩, .insert ⟨3, 2 ^ 62, 6, 0⟩, .insert ⟨4, 10, 7, 0⟩,
    .insert ⟨5, 2 ^ 63 - 1, 8, 0⟩, .removeNext, .remove ⟨3, 2 ^ 62, 6, 0⟩, .removeNext, .removeNext]

theorem run_agrees_fiveEvents :
    ListScheduler.Admitted fiveEvents ∧ (∀ pre op, pre ++ [op] <+: fiveEvents → Accepts pre op) ∧
      ∃ s, run true fiveEvents = some s ∧ Agrees s (ListScheduler.run fiveEvents) := by
  have hadmitted : ListScheduler.Admitted fiveEvents := by decide
  have haccepts : ∀ pre op, pre ++ [op] <+: fiveEvents → Accepts pre op :=
    RunLib.forall_step_iff_forall_fin.mpr (by decide)
  exact ⟨hadmitted, haccepts, run_agrees true hadmitted haccepts⟩

end CalendarScheduler

end Ns3Ndn
