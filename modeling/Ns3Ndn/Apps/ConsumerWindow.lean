import Ns3Ndn.Apps.Consumer
import Ns3Ndn.Lib.Run

/-!
# Consumers with a window

`apps/ndn-consumer-window.cpp` and `apps/ndn-consumer-pcon.cpp`: a consumer with a window counts the requests that are
in flight. Each timeout and each Data takes one from the count, also Data for a request that is not outstanding.

How the window grows and shrinks is a `WindowPolicy`. That of `ConsumerPcon` is a floating-point computation, and any
policy stands for it.

* `Steady`: Data is for an outstanding request, and no request is outstanding twice;
* **`run_counts_iff`**: the count is right all along a run exactly when all its calls are steady.
-/

namespace Ns3Ndn

structure WindowPolicy where
  State : Type
  init : State
  window : State → ℚ
  onData : State → Consumer → (seq : ℕ) → (congestionMark : ℕ) → State
  onTimeout : State → Consumer → State

def consumerWindow (initialWindow : ℕ) (setInitialWindowOnTimeout : Bool) : WindowPolicy where
  State := ℚ
  init := initialWindow
  window := id
  onData window _ _ _ := window + 1
  onTimeout window _ := if setInitialWindowOnTimeout then initialWindow else window

structure WindowConsumer (P : WindowPolicy) where
  base : Consumer
  inFlight : ℕ := 0
  policy : P.State := P.init

/-- A call. -/
inductive WindowOp where
  | wait (time : ℕ)
  | sendPacket
  | checkRetxTimeout (rto : ℕ)
  | onData (seq congestionMark : ℕ)
  | stopApplication

namespace WindowConsumer

open Consumer

variable {P : WindowPolicy} (s : WindowConsumer P)

/-- The requests without Data that have not timed out. -/
def outstanding : List SeqTimeout := s.base.seqTimeouts.entries

def schedulesNow : Prop := P.window s.policy ≠ 0 ∧ ¬ P.window s.policy ≤ s.inFlight

def decInFlight : WindowConsumer P := { s with inFlight := if 0 < s.inFlight then s.inFlight - 1 else s.inFlight }

def willSendOutInterest (seq : ℕ) : WindowConsumer P :=
  { s with inFlight := (s.inFlight + 1) % 2 ^ 32, base := s.base.willSendOutInterest seq }

def sendPacket : WindowConsumer P :=
  if s.base.active then
    match s.base.chooseSeq with
    | (none, base) => { s with base := base }
    | (some seq, base) => { s with base := base }.willSendOutInterest seq
  else s

def onTimeout (seq : ℕ) : WindowConsumer P :=
  { s.decInFlight with policy := P.onTimeout s.policy s.base, base := s.base.onTimeout seq }

def checkRetxTimeout (rto : ℕ) : WindowConsumer P :=
  timeoutLoop base (fun s base => { s with base := base }) onTimeout rto s.outstanding.length s

/-- `OnData`. The count changes also when the application is not active. -/
def onData (seq congestionMark : ℕ) : WindowConsumer P :=
  { s.decInFlight with
    base := s.base.onData seq
    policy := P.onData s.policy (s.base.onData seq) seq congestionMark }

/-- One call. -/
def step (s : WindowConsumer P) : WindowOp → WindowConsumer P
  | .wait time => { s with base := s.base.step (.wait time) }
  | .sendPacket => s.sendPacket
  | .checkRetxTimeout rto => s.checkRetxTimeout rto
  | .onData seq congestionMark => s.onData seq congestionMark
  | .stopApplication => { s with base := s.base.stopApplication }

def run (P : WindowPolicy) (startSeq seqMax : ℕ) (ops : List WindowOp) : WindowConsumer P :=
  ops.foldl step { base := .start startSeq seqMax }

theorem run_concat (startSeq seqMax : ℕ) (ops : List WindowOp) (op : WindowOp) :
    run P startSeq seqMax (ops ++ [op]) = (run P startSeq seqMax ops).step op := by
  rw [run, List.foldl_append]
  rfl

/-- **The count is the number of outstanding requests**, so that the rule allows a request only when fewer than the
window are outstanding. -/
structure Counts (s : WindowConsumer P) : Prop where
  inFlight : s.inFlight = s.outstanding.length
  schedulesNow : s.schedulesNow → s.outstanding.length < P.window s.policy

/-- When a call keeps the count: Data is for an outstanding request, or nothing is outstanding; a number that is sent
is not outstanding yet, and fewer than `2 ^ 32 - 1` are. -/
def Steady (s : WindowConsumer P) : WindowOp → Prop
  | .onData seq _ => s.outstanding = [] ∨ (s.base.active ∧ seq ∈ s.outstanding.map SeqTimeout.seq)
  | .sendPacket => s.base.active → ∀ seq, s.base.chooseSeq.1 = some seq →
    seq ∉ s.outstanding.map SeqTimeout.seq ∧ s.outstanding.length + 1 < 2 ^ 32
  | _ => True

theorem counts_iff {s : WindowConsumer P} : Counts s ↔ s.inFlight = s.outstanding.length := by
  constructor
  · exact Counts.inFlight
  · intro h
    refine ⟨h, fun hnow => ?_⟩
    rw [← h]
    exact not_le.mp hnow.2

variable {s}

theorem outstanding_onData (seq congestionMark : ℕ) :
    (s.onData seq congestionMark).outstanding =
      if s.base.active then (s.base.seqTimeouts.erase seq).entries else s.outstanding := by
  change (s.base.onData seq).seqTimeouts.entries = _
  rw [Consumer.onData]
  split_ifs <;> rfl

theorem counts_onData_iff (h : Counts s) (seq congestionMark : ℕ) :
    Counts (s.onData seq congestionMark) ↔ Steady s (.onData seq congestionMark) := by
  have hflight : (s.onData seq congestionMark).inFlight = s.outstanding.length - 1 := by
    change (if 0 < s.inFlight then s.inFlight - 1 else s.inFlight) = _
    rw [h.inFlight]
    split_ifs <;> omega
  have hempty : s.outstanding = [] ↔ s.outstanding.length = 0 := List.length_eq_zero_iff.symm
  rw [counts_iff, hflight, outstanding_onData, Steady]
  by_cases hactive : s.base.active = true
  · rw [if_pos hactive]
    by_cases hmem : seq ∈ s.outstanding.map SeqTimeout.seq
    · have hlen : (s.base.seqTimeouts.erase seq).entries.length + 1 = s.outstanding.length :=
        SeqTimeouts.length_erase_of_mem hmem
      refine ⟨fun _ => .inr ⟨hactive, hmem⟩, fun _ => ?_⟩
      omega
    · have hsame : (s.base.seqTimeouts.erase seq).entries = s.outstanding := SeqTimeouts.erase_of_not_mem hmem
      rw [hsame, hempty]
      constructor
      · intro hlen
        exact .inl (by omega)
      · rintro (hlen | ⟨-, hin⟩)
        · omega
        · exact absurd hin hmem
  · rw [if_neg hactive, hempty]
    constructor
    · intro hlen
      exact .inl (by omega)
    · rintro (hlen | ⟨hin, -⟩)
      · omega
      · exact absurd hin hactive

theorem seqTimeouts_chooseSeq (c : Consumer) : c.chooseSeq.2.seqTimeouts = c.seqTimeouts := by
  rw [chooseSeq]
  split_ifs <;> rfl

theorem counts_sendPacket_iff (h : Counts s) : Counts s.sendPacket ↔ Steady s .sendPacket := by
  rw [sendPacket, Steady]
  by_cases hactive : s.base.active = true
  · have hbase := seqTimeouts_chooseSeq s.base
    rw [if_pos hactive]
    rcases hchoose : s.base.chooseSeq with ⟨choice, base⟩
    rw [hchoose] at hbase
    cases choice with
    | none =>
      have hsame : Counts ({ s with base := base }) := by
        rw [counts_iff]
        change s.inFlight = base.seqTimeouts.entries.length
        rw [hbase]
        exact h.inFlight
      simpa [hactive] using hsame
    | some seq =>
      have hlen : ({ s with base := base }.willSendOutInterest seq).outstanding.length =
          if seq ∈ s.outstanding.map SeqTimeout.seq then s.outstanding.length else s.outstanding.length + 1 := by
        change (base.seqTimeouts.insert seq base.now).entries.length = _
        rw [hbase]
        exact SeqTimeouts.length_insert seq base.now
      have hflight : ({ s with base := base }.willSendOutInterest seq).inFlight = (s.outstanding.length + 1) % 2 ^ 32 := by
        change (s.inFlight + 1) % 2 ^ 32 = _
        rw [h.inFlight]
      change Counts ({ s with base := base }.willSendOutInterest seq) ↔ _
      rw [counts_iff, hlen, hflight]
      constructor
      · rintro heq - seq' hseq
        obtain rfl := Option.some.inj hseq
        split_ifs at heq with hmem
        · have := Nat.mod_lt (s.outstanding.length + 1) (Nat.two_pow_pos 32)
          omega
        · have := Nat.mod_lt (s.outstanding.length + 1) (Nat.two_pow_pos 32)
          exact ⟨hmem, by omega⟩
      · intro hsteady
        obtain ⟨hmem, hlt⟩ := hsteady hactive seq rfl
        rw [if_neg hmem, Nat.mod_eq_of_lt hlt]
  · rw [if_neg hactive]
    exact ⟨fun _ hact => absurd hact hactive, fun _ => h⟩

/-- **Timeouts keep the count.** -/
theorem counts_timeoutLoop (h : Counts s) (rto fuel : ℕ) :
    Counts (timeoutLoop base (fun s base => { s with base := base }) onTimeout rto fuel s) := by
  induction fuel generalizing s with
  | zero => exact h
  | succ fuel ih =>
    rw [timeoutLoop]
    cases htake : s.base.takeExpired rto with
    | none => exact h
    | some p =>
      obtain ⟨seq, base⟩ := p
      obtain ⟨hmem, rfl⟩ := takeExpired_eq htake
      refine ih (counts_iff.mpr ?_)
      have hlen : (s.base.seqTimeouts.erase seq).entries.length + 1 = s.outstanding.length :=
        SeqTimeouts.length_erase_of_mem hmem
      change (if 0 < s.inFlight then s.inFlight - 1 else s.inFlight) = (s.base.seqTimeouts.erase seq).entries.length
      rw [h.inFlight]
      split_ifs <;> omega

/-- **A call keeps the count exactly when it is steady.** -/
theorem counts_step_iff (h : Counts s) (op : WindowOp) : Counts (s.step op) ↔ Steady s op := by
  cases op with
  | wait time =>
    refine iff_of_true (counts_iff.mpr ?_) trivial
    exact h.inFlight
  | sendPacket => exact counts_sendPacket_iff h
  | checkRetxTimeout rto => exact iff_of_true (counts_timeoutLoop h rto _) trivial
  | onData seq congestionMark => exact counts_onData_iff h seq congestionMark
  | stopApplication =>
    refine iff_of_true (counts_iff.mpr ?_) trivial
    exact h.inFlight

/-- **The count is right in all states of a run exactly when all its calls are steady.** -/
theorem run_counts_iff (P : WindowPolicy) (startSeq seqMax : ℕ) (ops : List WindowOp) :
    (∀ pre, pre <+: ops → Counts (run P startSeq seqMax pre)) ↔
      ∀ pre op, pre ++ [op] <+: ops → Steady (run P startSeq seqMax pre) op := by
  refine RunLib.forall_prefix_iff_forall_step ?_ (fun pre op hpre => ?_) ops
  · exact counts_iff.mpr rfl
  · rw [run_concat]
    exact counts_step_iff hpre op

/-- Two requests, and the Data of the first one twice. -/
def duplicateData : List WindowOp := [.sendPacket, .sendPacket, .onData 0 0, .onData 0 0]

/-- **Duplicate Data is counted**: one request is outstanding, and none is counted. -/
theorem not_run_counts :
    (run (consumerWindow 2 true) 0 (2 ^ 32 - 1) duplicateData).inFlight = 0 ∧
      (run (consumerWindow 2 true) 0 (2 ^ 32 - 1) duplicateData).outstanding = [⟨1, 0⟩] ∧
      ¬ Counts (run (consumerWindow 2 true) 0 (2 ^ 32 - 1) duplicateData) := by
  have hflight : (run (consumerWindow 2 true) 0 (2 ^ 32 - 1) duplicateData).inFlight = 0 := by decide
  have hout : (run (consumerWindow 2 true) 0 (2 ^ 32 - 1) duplicateData).outstanding = [⟨1, 0⟩] := by decide
  refine ⟨hflight, hout, fun hcounts => ?_⟩
  have heq := hcounts.inFlight
  rw [hflight, hout] at heq
  cases heq

end WindowConsumer

end Ns3Ndn
