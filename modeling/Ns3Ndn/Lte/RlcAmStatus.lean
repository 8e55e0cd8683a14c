import Ns3Ndn.Lte.RlcAmReceiver

/-!
# Status reports of LTE RLC AM

`lte/model/lte-rlc-am.cc`, `DoNotifyTxOpportunity`: a report lists the numbers from `VR(R)` on that are missing, as many as fit, and
acknowledges up to the first one that is missing and not in the list.

* `StatusHeader`, `statusPdu`: the code;
* **`Tracks.statusPdu_spec`**: before `ACK_SN`, what is not in the list arrived.
-/

namespace Ns3Ndn.Lte

open OrdLib ReorderLib SequenceNumber10

structure StatusHeader where
  headerLength : ℕ := 2
  nackSnList : List ℕ := []

namespace StatusHeader

variable (h : StatusHeader)

/-- The size goes through `uint16_t`. A number is 12 bits long, so that every second one needs a byte less. -/
def oneMoreNackWouldFitIn (bytes : ℕ) : Bool :=
  if h.nackSnList.length % 2 = 0 then h.headerLength < bytes % 65536 else h.headerLength + 1 < bytes % 65536

def pushNack (nack : ℕ) : StatusHeader where
  nackSnList := h.nackSnList ++ [nack]
  headerLength := h.headerLength + if (h.nackSnList.length + 1) % 2 = 0 then 1 else 2

end StatusHeader

namespace RlcAmReceiver

section Code

variable {α : Type} (s : RlcAmReceiver α)

def isComplete (sn : SequenceNumber10) : Bool := (s.rxonBuffer.find? sn.value).any PduBuffer.pduComplete

def nackLoop (bytes : ℕ) : ℕ → SequenceNumber10 → StatusHeader → Option (SequenceNumber10 × StatusHeader)
  | 0, _, _ => none
  | fuel + 1, sn, header => (sn.lt s.vrMs).bind fun more =>
    if more && header.oneMoreNackWouldFitIn bytes then
      nackLoop bytes fuel sn.succ (if s.isComplete sn then header else header.pushNack sn.value)
    else some (sn, header)

def ackLoop : ℕ → SequenceNumber10 → Option SequenceNumber10
  | 0, _ => none
  | fuel + 1, sn => (sn.lt s.vrMs).bind fun more => if more && s.isComplete sn then ackLoop fuel sn.succ else some sn

/-- `ACK_SN` and the header of the report, with the assertion. -/
def statusPdu (bytes : ℕ) : Option (SequenceNumber10 × StatusHeader) :=
  (s.nackLoop bytes 1024 s.vrR {}).bind fun r => (s.ackLoop 1024 r.1).bind fun sn => (sn.le s.vrMs).bind fun upTo =>
    if upTo then some (sn, r.2) else none

def statusSent : RlcAmReceiver α := { s with statusPduRequested := false, statusPduBufferSize := 0 }

end Code

/-! ## What a report says -/

/-- The numbers `nacks` are those of PDUs from `k` to `n`, and the other PDUs there arrived. -/
structure Reports {α : Type} (received : OrdMap ℕ α) (k n : ℕ) (nacks : List ℕ) : Prop where
  inside : ∀ v ∈ nacks, ∃ i, k ≤ i ∧ i < n ∧ v = i % 1024
  others : ∀ i, k ≤ i → i < n → i % 1024 ∉ nacks → received.find? i ≠ none

section Reports

variable {α : Type} {m : OrdMap ℕ α} {s : RlcAmReceiver α} {k ms h x n : ℕ} {nacks : List ℕ}

theorem Reports.nil (m : OrdMap ℕ α) (k : ℕ) : Reports m k k [] :=
  ⟨fun v hv => absurd hv (by simp), fun i hi hi' => absurd hi' (Nat.not_lt.mpr hi)⟩

theorem Reports.received (hr : Reports m k n nacks) (hn : m.find? n ≠ none) : Reports m k (n + 1) nacks := by
  refine ⟨fun v hv => ?_, fun i hi hi' hv => ?_⟩
  · obtain ⟨i, hi, hi', hmod⟩ := hr.inside v hv
    exact ⟨i, hi, hi'.trans (Nat.lt_succ_self n), hmod⟩
  · rcases (Nat.lt_succ_iff.mp hi').eq_or_lt with rfl | hlt
    · exact hn
    · exact hr.others i hi hlt hv

theorem Reports.missing (hr : Reports m k n nacks) (hn : k ≤ n) : Reports m k (n + 1) (nacks ++ [n % 1024]) := by
  refine ⟨fun v hv => ?_, fun i hi hi' hv => ?_⟩
  · rcases List.mem_append.mp hv with hv | hv
    · obtain ⟨i, hi, hi', hmod⟩ := hr.inside v hv
      exact ⟨i, hi, hi'.trans (Nat.lt_succ_self n), hmod⟩
    · exact ⟨n, hn, Nat.lt_succ_self n, List.mem_singleton.mp hv⟩
  · rw [List.mem_append, not_or, List.mem_singleton] at hv
    exact hr.others i hi (lt_of_le_of_ne (Nat.lt_succ_iff.mp hi') fun heq => hv.2 (by rw [heq])) hv.1

variable (ht : Tracks m s k ms h x)

include ht

theorem Tracks.isComplete (hn : k ≤ n) (hn' : n < k + 1024) : s.isComplete (numbered k n) = (m.find? n).isSome := by
  rw [RlcAmReceiver.isComplete, value_numbered, find?_of_holds ht.split.holds ht.below_window hn hn']
  cases m.find? n <;> rfl

theorem Tracks.nackLoop (bytes : ℕ) {header : StatusHeader} (hr : Reports m k n header.nackSnList) (hn : k ≤ n) (hn' : n ≤ ms)
    (fuel : ℕ) (hfuel : ms < n + fuel) :
    ∃ n' header', s.nackLoop bytes fuel (numbered k n) header = some (numbered k n', header') ∧ k ≤ n' ∧ n' ≤ ms ∧
      Reports m k n' header'.nackSnList := by
  have horder := ht.order
  induction fuel generalizing n header with
  | zero => omega
  | succ fuel ih =>
    rw [RlcAmReceiver.nackLoop, ht.windows.vrMs, lt_numbered hn (by omega) (by omega) (by omega), Option.bind_some]
    by_cases hmore : (decide (n < ms) && header.oneMoreNackWouldFitIn bytes) = true
    · have hlt : n < ms := of_decide_eq_true ((Bool.and_eq_true _ _).mp hmore).1
      rw [if_pos hmore, ht.isComplete hn (by omega), succ_numbered]
      cases hfind : m.find? n with
      | some p => exact ih (hr.received (by rw [hfind]; exact Option.some_ne_none p)) (by omega) hlt (by omega)
      | none =>
        have hr' : Reports m k (n + 1) (header.pushNack (n % 1024)).nackSnList := hr.missing hn
        exact ih hr' (by omega) hlt (by omega)
    · rw [if_neg hmore]
      exact ⟨n, header, rfl, hn, hn', hr⟩

theorem Tracks.ackLoop (hr : Reports m k n nacks) (hn : k ≤ n) (hn' : n ≤ ms) (fuel : ℕ) (hfuel : ms < n + fuel) :
    ∃ n', s.ackLoop fuel (numbered k n) = some (numbered k n') ∧ k ≤ n' ∧ n' ≤ ms ∧ Reports m k n' nacks := by
  have horder := ht.order
  induction fuel generalizing n with
  | zero => omega
  | succ fuel ih =>
    rw [RlcAmReceiver.ackLoop, ht.windows.vrMs, lt_numbered hn (by omega) (by omega) (by omega), Option.bind_some]
    split_ifs with hmore
    · obtain ⟨hlt, hcomplete⟩ := (Bool.and_eq_true _ _).mp hmore
      rw [ht.isComplete hn (by omega)] at hcomplete
      rw [succ_numbered]
      exact ih (hr.received (Option.isSome_iff_ne_none.mp hcomplete)) (by omega) (of_decide_eq_true hlt) (by omega)
    · exact ⟨n, rfl, hn, hn', hr⟩

/-- **A report says what arrived**: the PDUs before `ACK_SN` that are not in its list. -/
theorem Tracks.statusPdu_spec (bytes : ℕ) :
    ∃ n header, s.statusPdu bytes = some (numbered k n, header) ∧ k ≤ n ∧ n ≤ ms ∧ Reports m k n header.nackSnList := by
  have horder := ht.order
  have hnil : Reports m k k ({} : StatusHeader).nackSnList := .nil m k
  obtain ⟨n, header, hrun, hn, hn', hr⟩ := ht.nackLoop bytes hnil le_rfl horder.1 1024 (by omega)
  obtain ⟨n', hrun', hk, hms, hr'⟩ := ht.ackLoop hr hn hn' 1024 (by omega)
  refine ⟨n', header, ?_, hk, hms, hr'⟩
  rw [RlcAmReceiver.statusPdu, ht.windows.vrR, hrun, Option.bind_some, hrun', Option.bind_some, ht.windows.vrMs,
    le_numbered hk (by omega) (by omega) (by omega), decide_eq_true hms]
  rfl

theorem Tracks.statusSent : Tracks m s.statusSent k ms h x :=
  ⟨ht.windowSize, ⟨ht.windows.vrR, ht.windows.vrMs, ht.windows.vrH, ht.windows.vrX⟩, ht.vrMr, ⟨ht.split.delivered, ht.split.holds⟩,
    ht.next, ht.missing, ht.below, ht.order, ht.timer⟩

end Reports

end RlcAmReceiver

end Ns3Ndn.Lte
