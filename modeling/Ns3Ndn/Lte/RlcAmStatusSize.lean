import Ns3Ndn.Lte.RlcAmStatus

/-!
# The size of status reports of LTE RLC AM

`lte/model/lte-rlc-am.cc`, `DoNotifyTxOpportunity`: a number is added to a report when one more fits. The first number of a pair needs two
bytes more and the second one a byte, and the test has the two the other way around.

* **`reportRun_statusPdu_iff`**: reports are right, and those that are not too long.
-/

namespace Ns3Ndn.Lte

open OrdLib ReorderLib SequenceNumber10

/-! ## The length -/

namespace StatusHeader

def lengthOf (n : ℕ) : ℕ := 2 + n + (n + 1) / 2

/-- The test before the number after `n` ones. -/
def RoomFor (n bytes : ℕ) : Prop := if n % 2 = 0 then lengthOf n < bytes % 65536 else lengthOf n + 1 < bytes % 65536

theorem oneMoreNackWouldFitIn_iff {h : StatusHeader} {bytes : ℕ} (hlength : h.headerLength = lengthOf h.nackSnList.length) :
    h.oneMoreNackWouldFitIn bytes = true ↔ RoomFor h.nackSnList.length bytes := by
  unfold oneMoreNackWouldFitIn RoomFor
  rw [hlength]
  split_ifs <;> exact decide_eq_true_iff

theorem headerLength_pushNack {h : StatusHeader} (hlength : h.headerLength = lengthOf h.nackSnList.length) (nack : ℕ) :
    (h.pushNack nack).headerLength = lengthOf (h.pushNack nack).nackSnList.length := by
  simp only [pushNack, List.length_append, List.length_singleton, hlength, lengthOf]
  split_ifs <;> omega

theorem lengthOf_even (a : ℕ) : lengthOf (2 * a) = 3 * a + 2 := by
  rw [lengthOf]
  omega

theorem lengthOf_odd (a : ℕ) : lengthOf (2 * a + 1) = 3 * a + 4 := by
  rw [lengthOf]
  omega

theorem roomFor_even (a bytes : ℕ) : RoomFor (2 * a) bytes ↔ 3 * a + 2 < bytes % 65536 := by
  rw [RoomFor, if_pos (Nat.mul_mod_right 2 a), lengthOf_even]

theorem roomFor_odd (a bytes : ℕ) : RoomFor (2 * a + 1) bytes ↔ 3 * a + 5 < bytes % 65536 := by
  rw [RoomFor, if_neg (by omega), lengthOf_odd]

/-- **When a report is too long**, with `n` numbers of `total`: the last one was the first of a pair, and there was one byte for it. -/
theorem lengthOf_le_iff {n total bytes : ℕ} (hbytes : 4 ≤ bytes) (hlast : n ≠ 0 → RoomFor (n - 1) bytes) (hle : n ≤ total)
    (hend : n = total ∨ ¬ RoomFor n bytes) :
    lengthOf n ≤ bytes ↔ ¬ (bytes < 65536 ∧ bytes % 3 = 0 ∧ 2 * (bytes / 3) ≤ total + 1) := by
  -- a size of 65536 bytes or more is for a longer report than the test allows
  by_cases hsmall : bytes < 65536
  · have hroom : bytes % 65536 = bytes := Nat.mod_eq_of_lt hsmall
    rw [and_iff_right hsmall]
    obtain ⟨a, rfl | rfl⟩ := Nat.even_or_odd' n
    · rw [roomFor_even, hroom] at hend
      rw [lengthOf_even]
      cases a with
      | zero => omega
      | succ a =>
        have hlast := (roomFor_odd a bytes).mp (hlast (by omega))
        omega
    · have hlast := (roomFor_even a bytes).mp (hlast (by omega))
      rw [roomFor_odd, hroom] at hend
      rw [lengthOf_odd]
      omega
  · refine iff_of_true ?_ fun h => hsmall h.1
    have hroom : bytes % 65536 < 65536 := Nat.mod_lt bytes (by decide)
    obtain ⟨a, rfl | rfl⟩ := Nat.even_or_odd' n
    · rw [lengthOf_even]
      cases a with
      | zero => omega
      | succ a =>
        have hlast := (roomFor_odd a bytes).mp (hlast (by omega))
        omega
    · have hlast := (roomFor_even a bytes).mp (hlast (by omega))
      rw [lengthOf_odd]
      omega

end StatusHeader

namespace RlcAmReceiver

variable {α : Type}

/-! ## The receiver -/

/-- What happens to the receiving side, where data PDUs come with any sequence number. -/
inductive ReportEvent (α : Type) where
  | data (sequenceNumber : ℕ) (pollingBit : Bool) (p : α)
  | expire
  | statusSent

def reportStep (s : RlcAmReceiver α) : ReportEvent α → Option (RlcAmReceiver α)
  | .data sequenceNumber pollingBit p => s.receiveDataPdu (ofValue sequenceNumber) pollingBit p
  | .expire => if s.reorderingTimer then s.expireReorderingTimer else some s
  | .statusSent => some (if s.statusPduRequested then s.statusSent else s)

def reportRun (events : List (ReportEvent α)) : Option (RlcAmReceiver α) := events.foldlM reportStep {}

def arriveAny (received : OrdMap ℕ α) : ReportEvent α → OrdMap ℕ α
  | .data sequenceNumber _ p =>
    let n := counted (expected received) (sequenceNumber % 1024)
    if n < expected received + 512 then received.insertNew n p else received
  | .expire => received
  | .statusSent => received

def receivedAny (events : List (ReportEvent α)) : OrdMap ℕ α := events.foldl arriveAny .empty

section Steps

variable {m : OrdMap ℕ α} {s : RlcAmReceiver α} {k ms h x n bytes : ℕ}

theorem Tracks.receive_outside (ht : Tracks m s k ms h x) (hn : k + 512 ≤ n) (hn' : n < k + 1024) (pollingBit : Bool) (p : α) :
    ∃ s', s.receiveDataPdu (ofValue n) pollingBit p = some s' ∧ Tracks m s' k ms h x := by
  have ht' := ht.requestStatus pollingBit
  have hseq : (ofValue n).setModulusBase s.vrR.value = numbered k n := by
    rw [ht.windows.vrR]
    rfl
  have hinside : (s.requestStatus pollingBit).isInsideReceivingWindow (numbered k n) = some false := by
    rw [ht'.windows.isInside ht'.vrMr k (by omega) hn']
    exact congrArg some (decide_eq_false (by omega))
  refine ⟨s.requestStatus pollingBit, ?_, ht'⟩
  rw [receiveDataPdu, hseq, hinside]
  show some (s.requestStatus pollingBit).setWindowBase = _
  rw [ht'.windows.setWindowBase ht'.vrMr]

/-- **One step keeps the numbers**, for any event. -/
theorem Tracks.reportStep (ht : Tracks m s k ms h x) (e : ReportEvent α) :
    ∃ s' k' ms' h' x', s.reportStep e = some s' ∧ Tracks (arriveAny m e) s' k' ms' h' x' := by
  cases e with
  | data sequenceNumber pollingBit p =>
    rw [arriveAny, ht.expected]
    have hmod : ofValue sequenceNumber = ofValue (counted k (sequenceNumber % 1024)) := by
      rw [ofValue, ofValue, counted]
      congr 1
      omega
    have hle : k ≤ counted k (sequenceNumber % 1024) := Nat.le_add_right k _
    have hlt : counted k (sequenceNumber % 1024) < k + 1024 := Nat.add_lt_add_left (Nat.mod_lt _ (by decide)) k
    rw [RlcAmReceiver.reportStep, hmod]
    split_ifs with hinside
    · obtain ⟨s', k', ms', x', hs', ht'⟩ := ht.receive_inside hle hinside pollingBit p
      exact ⟨s', k', ms', _, x', hs', ht'⟩
    · obtain ⟨s', hs', ht'⟩ := ht.receive_outside (Nat.not_lt.mp hinside) hlt pollingBit p
      exact ⟨s', k, ms, h, x, hs', ht'⟩
  | expire =>
    rw [RlcAmReceiver.reportStep]
    split_ifs with htimer
    · obtain ⟨s', ms', x', hs', ht'⟩ := ht.expire htimer
      exact ⟨s', k, ms', h, x', hs', ht'⟩
    · exact ⟨s, k, ms, h, x, rfl, ht⟩
  | statusSent =>
    rw [RlcAmReceiver.reportStep]
    split_ifs
    · exact ⟨s.statusSent, k, ms, h, x, rfl, ht.statusSent⟩
    · exact ⟨s, k, ms, h, x, rfl, ht⟩

theorem reportRun_tracks (events : List (ReportEvent α)) :
    ∃ s k ms h x, reportRun events = some s ∧ Tracks (receivedAny events) s k ms h x := by
  induction events using List.reverseRecOn with
  | nil => exact ⟨{}, 0, 0, 0, 0, rfl, tracks_init⟩
  | append_singleton events e ih =>
    obtain ⟨s, k, ms, h, x, hs, ht⟩ := ih
    obtain ⟨s', k', ms', h', x', hs', ht'⟩ := ht.reportStep e
    refine ⟨s', k', ms', h', x', ?_, ?_⟩
    · rw [reportRun, List.foldlM_append, ← reportRun, hs]
      show List.foldlM RlcAmReceiver.reportStep s [e] = some s'
      rw [List.foldlM_cons, hs']
      rfl
    · rw [receivedAny, List.foldl_append]
      exact ht'

/-! ## The list -/

def missingPdus (received : OrdMap ℕ α) (k n : ℕ) : List ℕ := (List.range n).filter fun i => decide (k ≤ i) && (received.find? i).isNone

theorem mem_missingPdus {i : ℕ} : i ∈ missingPdus m k n ↔ k ≤ i ∧ i < n ∧ m.find? i = none := by
  rw [missingPdus, List.mem_filter, List.mem_range, Bool.and_eq_true, decide_eq_true_eq, Option.isNone_iff_eq_none]
  exact and_left_comm

theorem missingPdus_self (m : OrdMap ℕ α) (k : ℕ) : missingPdus m k k = [] :=
  List.eq_nil_iff_forall_not_mem.mpr fun i hi => by
    obtain ⟨hle, hlt, -⟩ := mem_missingPdus.mp hi
    omega

theorem missingPdus_succ (hn : k ≤ n) : missingPdus m k (n + 1) = if m.find? n = none then missingPdus m k n ++ [n] else missingPdus m k n := by
  rw [missingPdus, List.range_succ, List.filter_append, ← missingPdus, List.filter_singleton, decide_eq_true hn, Bool.true_and]
  cases m.find? n with
  | none => rfl
  | some p => simp

theorem reports_missingPdus (m : OrdMap ℕ α) (k n : ℕ) : Reports m k n ((missingPdus m k n).map (· % 1024)) := by
  refine ⟨fun v hv => ?_, fun i hi hi' hv hfind => hv ?_⟩
  · obtain ⟨i, hi, rfl⟩ := List.mem_map.mp hv
    obtain ⟨hle, hlt, -⟩ := mem_missingPdus.mp hi
    exact ⟨i, hle, hlt, rfl⟩
  · exact List.mem_map_of_mem (mem_missingPdus.mpr ⟨hi, hi', hfind⟩)

theorem length_missingPdus_le (hn' : n ≤ ms) : (missingPdus m k n).length ≤ (missingPdus m k ms).length := by
  refine ((List.range_sublist.mpr hn').filter _).length_le

/-- **The list of a report** has the PDUs missing before some number, and the loop ends there because no number fits or at `VR(MS)`. -/
theorem Tracks.nackLoop_missing (ht : Tracks m s k ms h x) (bytes : ℕ) (header : StatusHeader) (hn : k ≤ n) (hn' : n ≤ ms)
    (hlist : header.nackSnList = (missingPdus m k n).map (· % 1024)) (hlength : header.headerLength = StatusHeader.lengthOf header.nackSnList.length)
    (hlast : header.nackSnList.length ≠ 0 → StatusHeader.RoomFor (header.nackSnList.length - 1) bytes) (fuel : ℕ) (hfuel : ms < n + fuel) :
    ∃ n' header', s.nackLoop bytes fuel (numbered k n) header = some (numbered k n', header') ∧ k ≤ n' ∧ n' ≤ ms ∧
      header'.nackSnList = (missingPdus m k n').map (· % 1024) ∧ header'.headerLength = StatusHeader.lengthOf header'.nackSnList.length ∧
      (header'.nackSnList.length ≠ 0 → StatusHeader.RoomFor (header'.nackSnList.length - 1) bytes) ∧
      (n' = ms ∨ ¬ StatusHeader.RoomFor header'.nackSnList.length bytes) := by
  have horder := ht.order
  induction fuel generalizing n header with
  | zero => omega
  | succ fuel ih =>
    rw [RlcAmReceiver.nackLoop, ht.windows.vrMs, lt_numbered hn (by omega) (by omega) (by omega), Option.bind_some]
    by_cases hmore : (decide (n < ms) && header.oneMoreNackWouldFitIn bytes) = true
    · obtain ⟨hlt, hroom⟩ := (Bool.and_eq_true _ _).mp hmore
      have hlt : n < ms := of_decide_eq_true hlt
      have hroom := (StatusHeader.oneMoreNackWouldFitIn_iff hlength).mp hroom
      have hsucc := missingPdus_succ (m := m) hn
      rw [if_pos hmore, ht.isComplete hn (by omega), succ_numbered]
      cases hfind : m.find? n with
      | some p =>
        rw [hfind, if_neg (Option.some_ne_none p)] at hsucc
        exact ih header (by omega) hlt (hlist.trans (by rw [hsucc])) hlength hlast (by omega)
      | none =>
        rw [hfind, if_pos rfl] at hsucc
        refine @ih (n + 1) (header.pushNack (n % 1024)) (by omega) hlt ?_ (StatusHeader.headerLength_pushNack hlength _) (fun _ => ?_) (by omega)
        · rw [hsucc, List.map_append, ← hlist]
          rfl
        · rwa [StatusHeader.pushNack, List.length_append, List.length_singleton, Nat.add_sub_cancel]
    · rw [if_neg hmore]
      refine ⟨n, header, rfl, hn, hn', hlist, hlength, hlast, ?_⟩
      rcases hn'.eq_or_lt with heq | hlt
      · exact .inl heq
      · refine .inr fun hroom => hmore ?_
        rw [decide_eq_true hlt, (StatusHeader.oneMoreNackWouldFitIn_iff hlength).mpr hroom]
        rfl

/-! ## Reports -/

/-- **A report is truthful and fits**: it has at most `bytes` bytes, `ACK_SN` is the number of a PDU between those of `VR(R)` and `VR(MS)`,
and the PDUs before it are in the list exactly if they were not received. -/
structure Fitting (received : OrdMap ℕ α) (s : RlcAmReceiver α) (bytes : ℕ) (ackSn : SequenceNumber10) (header : StatusHeader) : Prop where
  fits : header.headerLength ≤ bytes
  from_vrR : s.vrR.le ackSn = some true
  to_vrMs : ackSn.le s.vrMs = some true
  truthful : ∀ n, expected received ≤ n → n < counted (expected received) ackSn.value → (n % 1024 ∈ header.nackSnList ↔ received.find? n = none)

/-- **The condition**: with a multiple of three bytes, fewer PDUs are missing than would fill the report, and one more. -/
def FewMissing (received : OrdMap ℕ α) (s : RlcAmReceiver α) (bytes : ℕ) : Prop :=
  ¬ (bytes < 65536 ∧ bytes % 3 = 0 ∧
    2 * (bytes / 3) ≤ (missingPdus received (expected received) (counted (expected received) s.vrMs.value)).length + 1)

theorem Tracks.statusPdu_iff (ht : Tracks m s k ms h x) (hbytes : 4 ≤ bytes) :
    ∃ ackSn header, s.statusPdu bytes = some (ackSn, header) ∧ (Fitting m s bytes ackSn header ↔ FewMissing m s bytes) := by
  have horder := ht.order
  obtain ⟨n, header, hloop, hn, hn', hlist, hlength, hlast, hend⟩ := ht.nackLoop_missing bytes {} le_rfl horder.1
    (by rw [missingPdus_self]; rfl) rfl (fun h => absurd rfl h) 1024 (by omega)
  have hreports : Reports m k n header.nackSnList := hlist ▸ reports_missingPdus m k n
  obtain ⟨n', hack, hk, hms, hreports'⟩ := ht.ackLoop hreports hn hn' 1024 (by omega)
  refine ⟨numbered k n', header, ?_, ?_⟩
  · rw [RlcAmReceiver.statusPdu, ht.windows.vrR, hloop, Option.bind_some, hack, Option.bind_some, ht.windows.vrMs,
      le_numbered hk (by omega) (by omega) (by omega), decide_eq_true hms]
    rfl
  · have hcount : counted k ((numbered k n').value) = n' := counted_mod hk (by omega)
    have hcountMs : counted k s.vrMs.value = ms := by
      rw [ht.windows.vrMs]
      exact counted_mod horder.1 (by omega)
    have hlen : header.nackSnList.length = (missingPdus m k n).length := by rw [hlist, List.length_map]
    have hle : header.nackSnList.length ≤ (missingPdus m k ms).length := hlen.trans_le (length_missingPdus_le hn')
    have hend' : header.nackSnList.length = (missingPdus m k ms).length ∨ ¬ StatusHeader.RoomFor header.nackSnList.length bytes :=
      hend.imp_left fun heq => by rw [hlen, heq]
    rw [FewMissing, ht.expected, hcountMs, ← StatusHeader.lengthOf_le_iff hbytes hlast hle hend', ← hlength]
    refine ⟨Fitting.fits, fun hfits => ⟨hfits, ?_, ?_, fun i hi hi' => ⟨fun hmem => ?_, fun hfind => ?_⟩⟩⟩
    · rw [ht.windows.vrR, le_numbered le_rfl (by omega) hk (by omega), decide_eq_true hk]
    · rw [ht.windows.vrMs, le_numbered hk (by omega) horder.1 (by omega), decide_eq_true hms]
    · -- less than 1024 PDUs are concerned, so that the number tells which one it is
      rw [ht.expected] at hi hi'
      rw [hcount] at hi'
      rw [hlist] at hmem
      obtain ⟨i', hi'', hmod⟩ := List.mem_map.mp hmem
      obtain ⟨hle', hlt', hfind⟩ := mem_missingPdus.mp hi''
      have heq : i' = i := by omega
      rwa [heq] at hfind
    · rw [ht.expected] at hi hi'
      rw [hcount] at hi'
      by_contra hmem
      exact hreports'.others i hi hi' hmem hfind

end Steps

/-- **The reports that are right** in every state that a receiver can reach: they always are truthful, and they fit if not too many PDUs
are missing for a multiple of three bytes. -/
theorem reportRun_statusPdu_iff (events : List (ReportEvent α)) (bytes : ℕ) (hbytes : 4 ≤ bytes) :
    ∃ s, reportRun events = some s ∧ (s.statusPduRequested = true → ∃ ackSn header, s.statusPdu bytes = some (ackSn, header) ∧
      (Fitting (receivedAny events) s bytes ackSn header ↔ FewMissing (receivedAny events) s bytes)) := by
  obtain ⟨s, k, ms, h, x, hs, ht⟩ := reportRun_tracks events
  exact ⟨s, hs, fun _ => ht.statusPdu_iff hbytes⟩

/-- The fourth PDU comes, and the ones before it are missing. -/
def threeMissing : List (ReportEvent ℕ) := [.data 3 true 10, .expire]

theorem reportRun_statusPdu_iff_threeMissing :
    ∃ s, reportRun threeMissing = some s ∧ (s.statusPduRequested = true → ∃ ackSn header, s.statusPdu 6 = some (ackSn, header) ∧
      (Fitting (receivedAny threeMissing) s 6 ackSn header ↔ FewMissing (receivedAny threeMissing) s 6)) :=
  reportRun_statusPdu_iff threeMissing 6 (by decide)

/-- A report of seven bytes for six. -/
theorem not_reportRun_statusPdu_threeMissing : ¬ ∀ (events : List (ReportEvent ℕ)) (bytes : ℕ), 4 ≤ bytes →
    ∃ s, reportRun events = some s ∧ (s.statusPduRequested = true → ∃ ackSn header, s.statusPdu bytes = some (ackSn, header) ∧
      Fitting (receivedAny events) s bytes ackSn header) := by
  intro h
  obtain ⟨s, hs, hdue⟩ := h threeMissing 6 (by decide)
  have hrequested : (reportRun threeMissing).map RlcAmReceiver.statusPduRequested = some true := by decide
  have hlength : (reportRun threeMissing).bind (fun s => (s.statusPdu 6).map fun r => r.2.headerLength) = some 7 := by decide
  rw [hs] at hrequested hlength
  obtain ⟨ackSn, header, hpdu, hfitting⟩ := hdue (Option.some_inj.mp hrequested)
  rw [Option.bind_some, hpdu, Option.map_some] at hlength
  have hfits := hfitting.fits
  rw [Option.some_inj.mp hlength] at hfits
  exact absurd hfits (by decide)

end RlcAmReceiver

end Ns3Ndn.Lte
