import Ns3Ndn.Lib.Buckets
import Ns3Ndn.Lib.OrdMap
import Ns3Ndn.Lib.Run

/-!
# The consumer

`apps/ndn-consumer.cpp` and the history of `utils/ndn-rtt-mean-deviation.cpp`. A consumer requests one sequence number
after the other and requests a number again when it timed out. Sequence numbers and counts are 32-bit numbers, and
the greatest sequence number stands for none.

Times only grow (`wait`). How long a request waits for Data is the estimate of a floating-point computation; here any
time may be given to `checkRetxTimeout`.

Six components are not in the code: `taken` are the numbers that were taken from the counter, `sent` the requests,
`timedOut` the numbers that timed out, `received` the Data, and `firstDelays` and `lastDelays` the calls of the two
trace sources. The calls of `Measurement` are `Rtt.samples`.
-/

namespace Ns3Ndn

open BucketLib

/-! ## Containers -/

structure SeqTimeout where
  seq : ℕ
  time : ℕ
deriving DecidableEq

/-- `SeqTimeoutsContainer`: entries in the order of time, with distinct numbers. -/
structure SeqTimeouts where
  entries : List SeqTimeout := []
  nodup : (entries.map SeqTimeout.seq).Nodup := by decide

namespace SeqTimeouts

variable (l : SeqTimeouts)

def find? (seq : ℕ) : Option ℕ := (l.entries.find? fun e => e.seq == seq).map SeqTimeout.time

def insert (seq time : ℕ) : SeqTimeouts where
  entries :=
    if seq ∈ l.entries.map SeqTimeout.seq then l.entries
    else insertBy (fun a b => decide (a.time < b.time)) l.entries ⟨seq, time⟩
  nodup := by
    split_ifs with h
    · exact l.nodup
    · refine (((insertBy_perm _ _ _).map SeqTimeout.seq).nodup_iff).mpr ?_
      exact List.nodup_cons.mpr ⟨h, l.nodup⟩

def erase (seq : ℕ) : SeqTimeouts where
  entries := l.entries.filter fun e => e.seq ≠ seq
  nodup := l.nodup.sublist (List.filter_sublist.map _)

variable {l}

theorem find?_eq_some_iff {seq time : ℕ} : l.find? seq = some time ↔ ⟨seq, time⟩ ∈ l.entries := by
  rw [find?, Option.map_eq_some_iff]
  constructor
  · rintro ⟨e, he, rfl⟩
    obtain ⟨hmem, rfl⟩ := (find?_key_eq_some_iff l.nodup).mp he
    exact hmem
  · intro hmem
    exact ⟨_, (find?_key_eq_some_iff l.nodup).mpr ⟨hmem, rfl⟩, rfl⟩

theorem find?_isSome_iff {seq : ℕ} : (l.find? seq).isSome ↔ seq ∈ l.entries.map SeqTimeout.seq := by
  rw [Option.isSome_iff_exists, List.mem_map]
  constructor
  · rintro ⟨time, htime⟩
    exact ⟨_, find?_eq_some_iff.mp htime, rfl⟩
  · rintro ⟨e, he, rfl⟩
    exact ⟨e.time, find?_eq_some_iff.mpr he⟩

/-- **Insertion keeps an entry that is there.** -/
theorem find?_insert (seq time m : ℕ) :
    (l.insert seq time).find? m = if m = seq then some ((l.find? seq).getD time) else l.find? m := by
  by_cases hmem : seq ∈ l.entries.map SeqTimeout.seq
  · have heq : l.insert seq time = l := by
      rw [insert]
      simp only [hmem, if_true]
    obtain ⟨t, ht⟩ := Option.isSome_iff_exists.mp (find?_isSome_iff.mpr hmem)
    rw [heq, ht]
    split_ifs with h
    · rw [h, ht]
      rfl
    · rfl
  · have hnone : l.find? seq = none := by
      rw [← Option.not_isSome_iff_eq_none, find?_isSome_iff]
      exact hmem
    have hentries : ∀ e, e ∈ (l.insert seq time).entries ↔ e = ⟨seq, time⟩ ∨ e ∈ l.entries := by
      intro e
      simp only [insert, if_neg hmem]
      rw [(insertBy_perm _ _ _).mem_iff, List.mem_cons]
    ext t
    rw [find?_eq_some_iff, hentries, hnone, SeqTimeout.mk.injEq, ← find?_eq_some_iff]
    split_ifs with h
    · subst h
      simp [hnone, eq_comm]
    · simp [h]

theorem find?_erase (seq m : ℕ) : (l.erase seq).find? m = if m = seq then none else l.find? m := by
  ext t
  rw [find?_eq_some_iff]
  change _ ∈ l.entries.filter _ ↔ _
  rw [List.mem_filter, ← find?_eq_some_iff]
  split_ifs with h <;> simp [h]

theorem length_insert (seq time : ℕ) :
    (l.insert seq time).entries.length =
      if seq ∈ l.entries.map SeqTimeout.seq then l.entries.length else l.entries.length + 1 := by
  rw [insert]
  split_ifs with h
  · rfl
  · rw [(insertBy_perm _ _ _).length_eq, List.length_cons]

theorem length_erase_of_mem {seq : ℕ} (h : seq ∈ l.entries.map SeqTimeout.seq) :
    (l.erase seq).entries.length + 1 = l.entries.length := by
  have hone : (l.entries.filter fun e => e.seq = seq).length = 1 := by
    rw [← List.countP_eq_length_filter, ← List.count_eq_one_of_mem l.nodup h, List.count, List.countP_map]
    rfl
  have hsum := List.length_eq_length_filter_add (l := l.entries) fun e => decide (e.seq = seq)
  rw [hone, Nat.add_comm] at hsum
  rw [hsum]
  simp [erase]

theorem erase_of_not_mem {seq : ℕ} (h : seq ∉ l.entries.map SeqTimeout.seq) :
    (l.erase seq).entries = l.entries := by
  refine List.filter_eq_self.mpr fun e he => ?_
  rw [decide_eq_true_eq]
  rintro rfl
  exact h (List.mem_map_of_mem he)

end SeqTimeouts

/-! ## The history of the estimator -/

structure RttHistory where
  seq : ℕ
  count : ℕ
  time : ℕ
  retx : Bool := false

/-- `RttMeanDeviation`, without its estimate. -/
structure Rtt where
  history : List RttHistory := []
  nodup : (history.map RttHistory.seq).Nodup := by decide
  multiplier : ℕ := 1
  maxMultiplier : ℕ := 64
  samples : List (ℕ × ℕ) := []

namespace Rtt

variable (r : Rtt)

def setRetx (seq : ℕ) : List RttHistory → List RttHistory
  | [] => []
  | h :: l => if h.seq = seq then { h with retx := true } :: l else h :: setRetx seq l

theorem map_seq_setRetx (seq : ℕ) (l : List RttHistory) :
    (setRetx seq l).map RttHistory.seq = l.map RttHistory.seq := by
  induction l with
  | nil => rfl
  | cons h l ih =>
    rw [setRetx]
    split_ifs
    · rfl
    · rw [List.map_cons, List.map_cons, ih]

def sentSeq (now seq size : ℕ) : Rtt :=
  { r with
    history := if seq ∈ r.history.map RttHistory.seq then setRetx seq r.history
      else r.history ++ [{ seq := seq, count := size, time := now }]
    nodup := by
      split_ifs with h
      · rw [map_seq_setRetx]
        exact r.nodup
      · rw [List.map_append]
        refine r.nodup.append (List.nodup_singleton _) ?_
        intro a ha ha'
        obtain rfl : a = seq := List.mem_singleton.mp ha'
        exact h ha }

/-- The entry of a number. -/
def find? (seq : ℕ) : Option RttHistory := r.history.find? fun h => h.seq == seq

def increaseMultiplier : Rtt :=
  { r with
    multiplier := if r.multiplier * 2 < r.maxMultiplier then r.multiplier * 2 else r.maxMultiplier }

def measurement (seq m : ℕ) : Rtt := { r with multiplier := 1, samples := r.samples ++ [(seq, m)] }

def eraseSeq (seq : ℕ) : Rtt :=
  { r with
    history := r.history.eraseP fun h => h.seq == seq
    nodup := r.nodup.sublist (List.eraseP_sublist.map _) }

def ackSeq (now seq : ℕ) : Rtt :=
  match r.find? seq with
  | none => r
  | some h => if h.retx then r.eraseSeq seq else (r.measurement seq (now - h.time)).eraseSeq seq

variable {r}

theorem find?_eq_some_iff {seq : ℕ} {h : RttHistory} : r.find? seq = some h ↔ h ∈ r.history ∧ h.seq = seq :=
  find?_key_eq_some_iff r.nodup

theorem find?_eq_none_iff {seq : ℕ} : r.find? seq = none ↔ seq ∉ r.history.map RttHistory.seq := by
  rw [find?, List.find?_eq_none, List.mem_map]
  simp

theorem find?_setRetx (seq m : ℕ) (l : List RttHistory) :
    ((setRetx seq l).find? fun h => h.seq == m) =
      if m = seq then (l.find? fun h => h.seq == m).map fun h => { h with retx := true }
      else l.find? fun h => h.seq == m := by
  induction l with
  | nil =>
    split_ifs <;> rfl
  | cons h l ih =>
    rw [setRetx]
    by_cases hseq : h.seq = seq
    · rw [if_pos hseq]
      by_cases hm : m = seq
      · simp [hseq, hm]
      · simp [hseq, hm, Ne.symm hm]
    · rw [if_neg hseq]
      by_cases hh : h.seq = m
      · have hm : m ≠ seq := fun hm => hseq (hh.trans hm)
        simp [hh, hm]
      · rw [List.find?_cons_of_neg (by simpa using hh), List.find?_cons_of_neg (by simpa using hh), ih]

/-- **A number that is sent again** is not measured. -/
theorem find?_sentSeq (now seq size m : ℕ) :
    (r.sentSeq now seq size).find? m =
      if m = seq then some ((r.find? seq).elim ⟨seq, size, now, false⟩ fun h => { h with retx := true })
      else r.find? m := by
  by_cases hmem : seq ∈ r.history.map RttHistory.seq
  · have hhistory : (r.sentSeq now seq size).history = setRetx seq r.history := by
      simp only [sentSeq, if_pos hmem]
    obtain ⟨h, hh⟩ := Option.ne_none_iff_exists'.mp (mt find?_eq_none_iff.mp (not_not.mpr hmem))
    rw [find?, hhistory, find?_setRetx]
    split_ifs with hm
    · subst hm
      rw [← find?, hh]
      rfl
    · rfl
  · have hhistory : (r.sentSeq now seq size).history = r.history ++ [⟨seq, size, now, false⟩] := by
      simp only [sentSeq, if_neg hmem]
    have hnone := find?_eq_none_iff.mpr hmem
    rw [find?, hhistory, List.find?_append, ← find?, hnone]
    split_ifs with hm
    · subst hm
      rw [hnone]
      simp
    · cases hfind : r.find? m with
      | none => simp [Ne.symm hm]
      | some h => rfl

@[simp] theorem samples_sentSeq (now seq size : ℕ) : (r.sentSeq now seq size).samples = r.samples := rfl

@[simp] theorem find?_increaseMultiplier (m : ℕ) : r.increaseMultiplier.find? m = r.find? m := rfl

@[simp] theorem samples_increaseMultiplier : r.increaseMultiplier.samples = r.samples := rfl

theorem find?_eraseSeq (seq m : ℕ) : (r.eraseSeq seq).find? m = if m = seq then none else r.find? m := by
  ext h
  rw [find?_eq_some_iff]
  change h ∈ r.history.eraseP _ ∧ _ ↔ _
  rw [mem_eraseP_key r.nodup]
  split_ifs with hm
  · simp [hm]
  · rw [find?_eq_some_iff]
    constructor
    · rintro ⟨⟨hmem, -⟩, hseq⟩
      exact ⟨hmem, hseq⟩
    · rintro ⟨hmem, hseq⟩
      exact ⟨⟨hmem, hseq ▸ hm⟩, hseq⟩

theorem find?_ackSeq (now seq m : ℕ) : (r.ackSeq now seq).find? m = if m = seq then none else r.find? m := by
  rw [ackSeq]
  cases hfind : r.find? seq with
  | none =>
    change r.find? m = _
    split_ifs with hm
    · rw [hm, hfind]
    · rfl
  | some h =>
    change (if h.retx then _ else _ : Rtt).find? m = _
    by_cases hretx : h.retx = true
    · rw [if_pos hretx, find?_eraseSeq]
    · rw [if_neg hretx, find?_eraseSeq]
      rfl

theorem samples_ackSeq (now seq : ℕ) :
    (r.ackSeq now seq).samples = r.samples ++ (((r.find? seq).filter fun h => ! h.retx).map fun h =>
      (seq, now - h.time)).toList := by
  rw [ackSeq]
  cases hfind : r.find? seq with
  | none => simp
  | some h => cases hretx : h.retx <;> simp [hretx, Option.filter, eraseSeq, measurement]

end Rtt

/-! ## The consumer -/

structure Consumer where
  active : Bool := true
  now : ℕ := 0
  seq : ℕ := 0
  seqMax : ℕ := 2 ^ 32 - 1
  retxSeqs : Finset ℕ := ∅
  seqTimeouts : SeqTimeouts := {}
  seqLastDelay : SeqTimeouts := {}
  seqFullDelay : SeqTimeouts := {}
  seqRetxCounts : OrdLib.OrdMap ℕ ℕ := .empty
  rtt : Rtt := {}
  taken : List ℕ := []
  sent : List SeqTimeout := []
  timedOut : List ℕ := []
  received : List SeqTimeout := []
  firstDelays : List (ℕ × ℕ × ℕ) := []
  lastDelays : List (ℕ × ℕ) := []

/-- A call. -/
inductive ConsumerOp where
  | wait (time : ℕ)
  | sendPacket
  | checkRetxTimeout (rto : ℕ)
  | onData (seq : ℕ)
  | stopApplication
deriving DecidableEq

namespace Consumer

variable (s : Consumer)

def willSendOutInterest (seq : ℕ) : Consumer :=
  { s with
    seqTimeouts := s.seqTimeouts.insert seq s.now
    seqFullDelay := s.seqFullDelay.insert seq s.now
    seqLastDelay := (s.seqLastDelay.erase seq).insert seq s.now
    seqRetxCounts := s.seqRetxCounts.insert seq (((s.seqRetxCounts.find? seq).getD 0 + 1) % 2 ^ 32)
    rtt := s.rtt.sentSeq s.now seq 1
    sent := s.sent ++ [⟨seq, s.now⟩] }

def firstRetx : ℕ := s.retxSeqs.min.untopD (2 ^ 32 - 1)

def chooseSeq : Option ℕ × Consumer :=
  let seq := s.firstRetx
  let s := { s with retxSeqs := s.retxSeqs.erase seq }
  if seq = 2 ^ 32 - 1 then
    if s.seqMax ≠ 2 ^ 32 - 1 ∧ s.seqMax ≤ s.seq then (none, s)
    else (some s.seq, { s with seq := (s.seq + 1) % 2 ^ 32, taken := s.taken ++ [s.seq] })
  else (some seq, s)

def sendPacket : Consumer :=
  if s.active then
    match s.chooseSeq with
    | (none, s) => s
    | (some seq, s) => s.willSendOutInterest seq
  else s

def onTimeout (seq : ℕ) : Consumer :=
  { s with
    rtt := s.rtt.increaseMultiplier.sentSeq s.now seq 1
    retxSeqs := insert seq s.retxSeqs
    timedOut := s.timedOut ++ [seq] }

/-- The number that timed out first is taken out. -/
def takeExpired (rto : ℕ) : Option (ℕ × Consumer) :=
  match s.seqTimeouts.entries with
  | [] => none
  | e :: _ =>
    if e.time + rto ≤ s.now then some (e.seq, { s with seqTimeouts := s.seqTimeouts.erase e.seq }) else none

def timeoutLoop {σ : Type} (base : σ → Consumer) (setBase : σ → Consumer → σ) (onTimeout : σ → ℕ → σ) (rto : ℕ) :
    (fuel : ℕ) → σ → σ
  | 0, s => s
  | fuel + 1, s =>
    match (base s).takeExpired rto with
    | none => s
    | some (seq, c) => timeoutLoop base setBase onTimeout rto fuel (onTimeout (setBase s c) seq)

def checkRetxTimeout (rto : ℕ) : Consumer :=
  timeoutLoop id (fun _ c => c) onTimeout rto s.seqTimeouts.entries.length s

def onData (seq : ℕ) : Consumer :=
  if s.active then
    { s with
      received := s.received ++ [⟨seq, s.now⟩]
      lastDelays := s.lastDelays ++ ((s.seqLastDelay.find? seq).map fun time => (seq, s.now - time)).toList
      firstDelays := s.firstDelays ++ ((s.seqFullDelay.find? seq).map fun time =>
        (seq, s.now - time, (s.seqRetxCounts.find? seq).getD 0)).toList
      seqRetxCounts := s.seqRetxCounts.erase seq
      seqFullDelay := s.seqFullDelay.erase seq
      seqLastDelay := s.seqLastDelay.erase seq
      seqTimeouts := s.seqTimeouts.erase seq
      retxSeqs := s.retxSeqs.erase seq
      rtt := s.rtt.ackSeq s.now seq }
  else s

def stopApplication : Consumer := { s with active := false }

/-- One call. -/
def step (s : Consumer) : ConsumerOp → Consumer
  | .wait time => { s with now := s.now + time }
  | .sendPacket => s.sendPacket
  | .checkRetxTimeout rto => s.checkRetxTimeout rto
  | .onData seq => s.onData seq
  | .stopApplication => s.stopApplication

def start (startSeq seqMax : ℕ) : Consumer := { seq := startSeq, seqMax := seqMax }

def run (startSeq seqMax : ℕ) (ops : List ConsumerOp) : Consumer := ops.foldl step (start startSeq seqMax)

theorem run_concat (startSeq seqMax : ℕ) (ops : List ConsumerOp) (op : ConsumerOp) :
    run startSeq seqMax (ops ++ [op]) = (run startSeq seqMax ops).step op := by
  rw [run, List.foldl_append]
  rfl

theorem takeExpired_eq {s : Consumer} {rto n : ℕ} {c : Consumer} (h : s.takeExpired rto = some (n, c)) :
    n ∈ s.seqTimeouts.entries.map SeqTimeout.seq ∧ c = { s with seqTimeouts := s.seqTimeouts.erase n } := by
  rw [takeExpired] at h
  cases hentries : s.seqTimeouts.entries with
  | nil =>
    rw [hentries] at h
    cases h
  | cons e l =>
    rw [hentries] at h
    change (if e.time + rto ≤ s.now then _ else none) = _ at h
    split_ifs at h
    obtain ⟨rfl, rfl⟩ := Prod.mk.inj (Option.some.inj h)
    exact ⟨List.mem_cons_self, rfl⟩

end Consumer

end Ns3Ndn
