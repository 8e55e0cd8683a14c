import Ns3Ndn.Apps.Consumer

/-!
# The requests of a consumer

What a consumer knows about one sequence number is a small state machine of its own: a number is new, outstanding,
waits for its retransmission, or is satisfied. The calls of the consumer are moves of this machine for one number, and
change nothing for the others.

The number of transmissions that a trace source gives is a 32-bit number.

* **`run_partitioned`**: they partition the numbers in every run.
-/

namespace Ns3Ndn

/-- What a consumer knows about one number. -/
structure Request where
  timeout : Option ℕ := none
  waiting : Prop := False
  full : Option ℕ := none
  last : Option ℕ := none
  count : Option ℕ := none
  history : Option RttHistory := none
  sent : List SeqTimeout := []
  timedOut : List ℕ := []
  received : List SeqTimeout := []
  delays : List (ℕ × ℕ × ℕ) := []
  samples : List (ℕ × ℕ) := []

namespace Request

variable (r : Request)

/-- The number is sent. -/
def send (seq now : ℕ) : Request :=
  { r with
    timeout := some (r.timeout.getD now)
    full := some (r.full.getD now)
    last := some now
    count := some ((r.count.getD 0 + 1) % 2 ^ 32)
    history := some (r.history.elim ⟨seq, 1, now, false⟩ fun h => { h with retx := true })
    sent := r.sent ++ [⟨seq, now⟩] }

def timeOut (seq now : ℕ) : Request :=
  { r with
    timeout := none
    waiting := True
    history := some (r.history.elim ⟨seq, 1, now, false⟩ fun h => { h with retx := true })
    timedOut := r.timedOut ++ [seq] }

def data (seq now : ℕ) : Request :=
  { r with
    timeout := none
    waiting := False
    full := none
    last := none
    count := none
    history := none
    received := r.received ++ [⟨seq, now⟩]
    delays := r.delays ++ (r.full.map fun time => (seq, now - time, r.count.getD 0)).toList
    samples := r.samples ++ ((r.history.filter fun h => ! h.retx).map fun h => (seq, now - h.time)).toList }

end Request

namespace Consumer

variable (s : Consumer)

/-- What a consumer knows about a number. -/
def request (n : ℕ) : Request where
  timeout := s.seqTimeouts.find? n
  waiting := n ∈ s.retxSeqs
  full := s.seqFullDelay.find? n
  last := s.seqLastDelay.find? n
  count := s.seqRetxCounts.find? n
  history := s.rtt.find? n
  sent := s.sent.filter fun e => e.seq = n
  timedOut := s.timedOut.filter fun m => m = n
  received := s.received.filter fun e => e.seq = n
  delays := s.firstDelays.filter fun p => p.1 = n
  samples := s.rtt.samples.filter fun p => p.1 = n

theorem filter_toList_map {α β : Type} (o : Option α) (f : α → β) (p : β → Bool) (h : ∀ a, p (f a) = true) :
    (o.map f).toList.filter p = (o.map f).toList := by
  cases o <;> simp [h]

theorem filter_toList_map_of_neg {α β : Type} (o : Option α) (f : α → β) (p : β → Bool) (h : ∀ a, p (f a) = false) :
    (o.map f).toList.filter p = [] := by
  cases o <;> simp [h]

/-- **A request is sent.** -/
theorem request_willSendOutInterest (n m : ℕ) :
    (s.willSendOutInterest n).request m = if m = n then (s.request n).send n s.now else s.request m := by
  by_cases hm : m = n
  · subst hm
    simp [request, willSendOutInterest, Request.send, SeqTimeouts.find?_insert, SeqTimeouts.find?_erase,
      Rtt.find?_sentSeq, List.filter_append]
  · simp [request, willSendOutInterest, SeqTimeouts.find?_insert, SeqTimeouts.find?_erase,
      OrdLib.OrdMap.find?_insert, Rtt.find?_sentSeq, List.filter_append, hm, Ne.symm hm]

/-- **A request timed out**, and is taken out. -/
theorem request_onTimeout (n m : ℕ) :
    (onTimeout { s with seqTimeouts := s.seqTimeouts.erase n } n).request m =
      if m = n then (s.request n).timeOut n s.now else s.request m := by
  by_cases hm : m = n
  · subst hm
    simp [request, onTimeout, Request.timeOut, SeqTimeouts.find?_erase, Rtt.find?_sentSeq, List.filter_append]
  · simp [request, onTimeout, SeqTimeouts.find?_erase, Rtt.find?_sentSeq, List.filter_append, hm, Ne.symm hm]

/-- **Data for a request.** -/
theorem request_onData (hactive : s.active = true) (n m : ℕ) :
    (s.onData n).request m = if m = n then (s.request n).data n s.now else s.request m := by
  rw [onData, if_pos hactive]
  by_cases hm : m = n
  · subst hm
    simp [request, Request.data, SeqTimeouts.find?_erase, Rtt.find?_ackSeq, Rtt.samples_ackSeq, List.filter_append,
      filter_toList_map]
  · simp [request, SeqTimeouts.find?_erase, OrdLib.OrdMap.find?_erase, Rtt.find?_ackSeq,
      Rtt.samples_ackSeq, List.filter_append, filter_toList_map_of_neg, hm, Ne.symm hm]

end Consumer

/-! ## The states of a request -/

namespace Request

/-- A number that was sent and has no Data yet: outstanding, or waiting for its retransmission. -/
structure Live (r : Request) : Prop where
  pending : (r.timeout.isSome ∧ ¬ r.waiting) ∨ (r.timeout = none ∧ r.waiting)
  full : ∃ e, r.sent.head? = some e ∧ r.full = some e.time
  last : r.last.isSome
  count : r.count = some (r.sent.length % 2 ^ 32)
  /-- The number is measured if it was sent once and has not timed out. -/
  history : ∃ h, r.history = some h ∧ (h.retx = false ↔ r.sent.length = 1 ∧ r.timedOut = [])
  received : r.received = []
  delays : r.delays = []
  samples : r.samples = []

/-- A number with Data. -/
structure Done (seq : ℕ) (r : Request) : Prop where
  timeout : r.timeout = none
  waiting : ¬ r.waiting
  full : r.full = none
  last : r.last = none
  count : r.count = none
  history : r.history = none
  delays : ∃ e d, r.sent.head? = some e ∧ r.received.head? = some d ∧
    r.delays = [(seq, d.time - e.time, r.sent.length % 2 ^ 32)]
  samples : r.samples ≠ [] → r.sent.length = 1 ∧ r.timedOut = []

variable {r : Request} {seq now : ℕ}

/-- **A new number is sent.** -/
theorem live_send_new (seq now : ℕ) : Live (send {} seq now) where
  pending := .inl ⟨rfl, not_false⟩
  full := ⟨_, rfl, rfl⟩
  last := rfl
  count := rfl
  history := ⟨_, rfl, by simp [send]⟩
  received := rfl
  delays := rfl
  samples := rfl

/-- **A number is sent again.** -/
theorem Live.send (h : r.Live) : Live ({ r with waiting := False }.send seq now) := by
  obtain ⟨e, hhead, hfull⟩ := h.full
  obtain ⟨hist, hhist, -⟩ := h.history
  have hne : r.sent ≠ [] := by
    intro hnil
    rw [hnil] at hhead
    cases hhead
  constructor
  case pending => exact .inl ⟨rfl, not_false⟩
  case full =>
    refine ⟨e, ?_, ?_⟩
    · change (r.sent ++ [_]).head? = some e
      rw [List.head?_append_of_ne_nil _ hne, hhead]
    · change some (r.full.getD now) = some e.time
      rw [hfull]
      rfl
  case last => rfl
  case count =>
    change some ((r.count.getD 0 + 1) % 2 ^ 32) = some ((r.sent ++ [_]).length % 2 ^ 32)
    rw [h.count, List.length_append, List.length_singleton, Option.getD_some, Nat.mod_add_mod]
  case history =>
    refine ⟨{ hist with retx := true }, ?_, ?_⟩
    · change some (r.history.elim _ _) = _
      rw [hhist]
      rfl
    · have hlen : (r.sent ++ [(⟨seq, now⟩ : SeqTimeout)]).length ≠ 1 := by
        rw [List.length_append, List.length_singleton]
        have := List.length_pos_iff.mpr hne
        omega
      exact ⟨fun hf => Bool.noConfusion hf, fun hs => absurd hs.1 hlen⟩
  case received => exact h.received
  case delays => exact h.delays
  case samples => exact h.samples

theorem Live.timeOut (h : r.Live) : Live (r.timeOut seq now) := by
  obtain ⟨hist, hhist, -⟩ := h.history
  constructor
  case pending => exact .inr ⟨rfl, trivial⟩
  case full => exact h.full
  case last => exact h.last
  case count => exact h.count
  case history =>
    refine ⟨{ hist with retx := true }, ?_, ?_⟩
    · change some (r.history.elim _ _) = _
      rw [hhist]
      rfl
    · change true = false ↔ _ ∧ r.timedOut ++ [seq] = []
      simp
  case received => exact h.received
  case delays => exact h.delays
  case samples => exact h.samples

/-- **The first Data.** -/
theorem Live.data (h : r.Live) : Done seq (r.data seq now) := by
  obtain ⟨e, hhead, hfull⟩ := h.full
  obtain ⟨hist, hhist, hretx⟩ := h.history
  constructor
  case timeout => rfl
  case waiting => exact not_false
  case full => rfl
  case last => rfl
  case count => rfl
  case history => rfl
  case delays =>
    refine ⟨e, ⟨seq, now⟩, hhead, ?_, ?_⟩
    · change (r.received ++ [_]).head? = _
      rw [h.received]
      rfl
    · change r.delays ++ (r.full.map _).toList = [(seq, now - e.time, r.sent.length % 2 ^ 32)]
      rw [h.delays, hfull, h.count]
      rfl
  case samples =>
    intro hne
    refine hretx.mp ?_
    by_contra htrue
    rw [Bool.not_eq_false] at htrue
    refine hne ?_
    change r.samples ++ ((r.history.filter _).map _).toList = []
    rw [h.samples, hhist]
    simp [Option.filter, htrue]

/-- **More Data changes nothing.** -/
theorem Done.data (h : r.Done seq) : Done seq (r.data seq now) := by
  obtain ⟨e, d, hsent, hreceived, hdelays⟩ := h.delays
  constructor
  case timeout => rfl
  case waiting => exact not_false
  case full => rfl
  case last => rfl
  case count => rfl
  case history => rfl
  case delays =>
    refine ⟨e, d, hsent, ?_, ?_⟩
    · change (r.received ++ [_]).head? = some d
      rw [List.head?_append, hreceived]
      rfl
    · change r.delays ++ (r.full.map _).toList = _
      rw [h.full, hdelays]
      rfl
  case samples =>
    intro hne
    refine h.samples fun hnil => hne ?_
    change r.samples ++ ((r.history.filter _).map _).toList = []
    rw [hnil, h.history]
    rfl

end Request

/-! ## Runs -/

namespace Consumer

/-- There is Data for the number. -/
def Satisfied (s : Consumer) (n : ℕ) : Prop := ∃ e ∈ s.received, e.seq = n

def transmissions (s : Consumer) (n : ℕ) : ℕ := s.sent.countP fun e => e.seq = n

/-- **The containers partition the numbers.** -/
structure Partitioned (s : Consumer) : Prop where
  /-- A number that was taken is outstanding, waits for its retransmission, or is satisfied. -/
  states : ∀ n ∈ s.taken,
    (n ∈ s.seqTimeouts.entries.map SeqTimeout.seq ∧ n ∉ s.retxSeqs ∧ ¬ s.Satisfied n) ∨
      (n ∉ s.seqTimeouts.entries.map SeqTimeout.seq ∧ n ∈ s.retxSeqs ∧ ¬ s.Satisfied n) ∨
      (n ∉ s.seqTimeouts.entries.map SeqTimeout.seq ∧ n ∉ s.retxSeqs ∧ s.Satisfied n)
  /-- The keys of the other containers are the numbers that are not satisfied. -/
  fullDelay : ∀ n, n ∈ s.seqFullDelay.entries.map SeqTimeout.seq ↔ n ∈ s.taken ∧ ¬ s.Satisfied n
  lastDelay : ∀ n, n ∈ s.seqLastDelay.entries.map SeqTimeout.seq ↔ n ∈ s.taken ∧ ¬ s.Satisfied n
  retxCounts : ∀ n, (s.seqRetxCounts.find? n).isSome ↔ n ∈ s.taken ∧ ¬ s.Satisfied n
  /-- The delay of a satisfied number is given once, from the first transmission to the first Data. -/
  firstDelay : ∀ n, s.Satisfied n → ∃ e d,
    (s.sent.find? fun e => e.seq = n) = some e ∧ (s.received.find? fun e => e.seq = n) = some d ∧
      (s.firstDelays.filter fun p => p.1 = n) = [(n, d.time - e.time, s.transmissions n % 2 ^ 32)]
  noDelay : ∀ n, ¬ s.Satisfied n → (s.firstDelays.filter fun p => p.1 = n) = []
  /-- Only numbers that were sent once and did not time out are measured. -/
  samples : ∀ p ∈ s.rtt.samples, s.transmissions p.1 = 1 ∧ p.1 ∉ s.timedOut

/-- **The invariant** from the first number. -/
structure Inv (s : Consumer) (startSeq : ℕ) : Prop where
  active : s.active = true
  taken : s.taken = List.range' startSeq s.taken.length
  seq : s.seq = startSeq + s.taken.length
  bound : s.seq < 2 ^ 32
  fresh : ∀ n, n ∉ s.taken → s.request n = {}
  known : ∀ n ∈ s.taken, (s.request n).Live ∨ (s.request n).Done n

variable {s : Consumer} {startSeq : ℕ}

theorem satisfied_iff {n : ℕ} : s.Satisfied n ↔ (s.request n).received ≠ [] := by
  change _ ↔ s.received.filter _ ≠ []
  rw [Ne, List.filter_eq_nil_iff]
  simp [Satisfied]

theorem Inv.satisfied_iff_done (h : Inv s startSeq) {n : ℕ} : s.Satisfied n ↔ n ∈ s.taken ∧ (s.request n).Done n := by
  rw [satisfied_iff]
  constructor
  · intro hne
    by_cases hn : n ∈ s.taken
    · refine ⟨hn, (h.known n hn).resolve_left fun hlive => hne hlive.received⟩
    · rw [h.fresh n hn] at hne
      exact absurd rfl hne
  · rintro ⟨-, hdone⟩ hnil
    obtain ⟨e, d, -, hreceived, -⟩ := hdone.delays
    rw [hnil] at hreceived
    cases hreceived

theorem Inv.mem_taken_iff (h : Inv s startSeq) {n : ℕ} : n ∈ s.taken ↔ startSeq ≤ n ∧ n < s.seq := by
  rw [h.taken, List.mem_range'_1, h.seq]

theorem Inv.live_iff (h : Inv s startSeq) {n : ℕ} : (s.request n).Live ↔ n ∈ s.taken ∧ ¬ s.Satisfied n := by
  constructor
  · intro hlive
    have hn : n ∈ s.taken := by
      by_contra hn
      obtain ⟨e, -, hfull⟩ := hlive.full
      rw [h.fresh n hn] at hfull
      cases hfull
    exact ⟨hn, fun hs => satisfied_iff.mp hs hlive.received⟩
  · rintro ⟨hn, hs⟩
    refine (h.known n hn).resolve_right fun hdone => ?_
    exact hs (h.satisfied_iff_done.mpr ⟨hn, hdone⟩)

/-- The keys of a container that has an entry for each number until its Data. -/
theorem Inv.isSome_iff (h : Inv s startSeq) {f : Request → Option ℕ} {n : ℕ} (hfresh : f {} = none)
    (hlive : ∀ r : Request, r.Live → (f r).isSome) (hdone : ∀ r : Request, r.Done n → f r = none) :
    (f (s.request n)).isSome = true ↔ n ∈ s.taken ∧ ¬ s.Satisfied n := by
  rw [← h.live_iff]
  constructor
  · intro hsome
    by_cases hn : n ∈ s.taken
    · refine (h.known n hn).resolve_right fun hd => ?_
      rw [hdone _ hd] at hsome
      cases hsome
    · rw [h.fresh n hn, hfresh] at hsome
      cases hsome
  · exact hlive _

/-- **The invariant gives the partition.** -/
theorem Inv.partitioned (h : Inv s startSeq) : Partitioned s := by
  constructor
  case states =>
    intro n hn
    rw [← SeqTimeouts.find?_isSome_iff]
    rcases h.known n hn with hlive | hdone
    · have hs := (h.live_iff.mp hlive).2
      rcases hlive.pending with ⟨htimeout, hwaiting⟩ | ⟨htimeout, hwaiting⟩
      · exact .inl ⟨htimeout, hwaiting, hs⟩
      · refine .inr (.inl ⟨?_, hwaiting, hs⟩)
        rw [Option.not_isSome_iff_eq_none]
        exact htimeout
    · refine .inr (.inr ⟨?_, hdone.waiting, h.satisfied_iff_done.mpr ⟨hn, hdone⟩⟩)
      rw [Option.not_isSome_iff_eq_none]
      exact hdone.timeout
  case fullDelay =>
    intro n
    rw [← SeqTimeouts.find?_isSome_iff]
    refine h.isSome_iff (f := Request.full) rfl (fun r hr => ?_) fun r hr => hr.full
    obtain ⟨e, -, hfull⟩ := hr.full
    rw [hfull]
    rfl
  case lastDelay =>
    intro n
    rw [← SeqTimeouts.find?_isSome_iff]
    exact h.isSome_iff (f := Request.last) rfl (fun r hr => hr.last) fun r hr => hr.last
  case retxCounts =>
    intro n
    refine h.isSome_iff (f := Request.count) rfl (fun r hr => ?_) fun r hr => hr.count
    rw [hr.count]
    rfl
  case firstDelay =>
    intro n hs
    obtain ⟨e, d, hsent, hreceived, hdelays⟩ := (h.satisfied_iff_done.mp hs).2.delays
    refine ⟨e, d, ?_, ?_, ?_⟩
    · rw [← List.head?_filter]
      exact hsent
    · rw [← List.head?_filter]
      exact hreceived
    · rw [transmissions, List.countP_eq_length_filter]
      exact hdelays
  case noDelay =>
    intro n hs
    by_cases hn : n ∈ s.taken
    · exact (h.live_iff.mpr ⟨hn, hs⟩).delays
    · exact congrArg Request.delays (h.fresh n hn)
  case samples =>
    intro p hp
    have hne : (s.request p.1).samples ≠ [] := by
      refine List.ne_nil_of_mem (a := p) ?_
      exact List.mem_filter.mpr ⟨hp, by simp⟩
    have hdone : (s.request p.1).Done p.1 := by
      by_cases hn : p.1 ∈ s.taken
      · exact (h.known p.1 hn).resolve_left fun hlive => hne hlive.samples
      · exact absurd (congrArg Request.samples (h.fresh p.1 hn)) hne
    obtain ⟨hlen, hnil⟩ := hdone.samples hne
    refine ⟨?_, fun hmem => ?_⟩
    · rw [transmissions, List.countP_eq_length_filter]
      exact hlen
    · have hin : p.1 ∈ (s.request p.1).timedOut := List.mem_filter.mpr ⟨hmem, by simp⟩
      rw [hnil] at hin
      cases hin

/-! ## One call -/

theorem Inv.of_request {s' : Consumer} (h : Inv s startSeq) {n : ℕ} (hn : n ∈ s.taken) (hactive : s'.active = s.active)
    (htaken : s'.taken = s.taken) (hseq : s'.seq = s.seq) (hother : ∀ m, m ≠ n → s'.request m = s.request m)
    (hrequest : (s'.request n).Live ∨ (s'.request n).Done n) : Inv s' startSeq := by
  constructor
  case active => rw [hactive, h.active]
  case taken =>
    rw [htaken]
    exact h.taken
  case seq => rw [hseq, htaken, h.seq]
  case bound =>
    rw [hseq]
    exact h.bound
  case fresh =>
    intro m hm
    rw [htaken] at hm
    have hne : m ≠ n := by
      rintro rfl
      exact hm hn
    rw [hother m hne]
    exact h.fresh m hm
  case known =>
    intro m hm
    by_cases hmn : m = n
    · rw [hmn]
      exact hrequest
    · rw [hother m hmn]
      exact h.known m (htaken ▸ hm)

theorem Inv.mem_taken_of_waiting (h : Inv s startSeq) {n : ℕ} (hn : n ∈ s.retxSeqs) : n ∈ s.taken := by
  by_contra hfresh
  have hwaiting : (s.request n).waiting := hn
  rw [h.fresh n hfresh] at hwaiting
  exact hwaiting

theorem request_erase_retxSeqs (n m : ℕ) :
    { s with retxSeqs := s.retxSeqs.erase n }.request m =
      if m = n then { s.request n with waiting := False } else s.request m := by
  split_ifs with hm
  · simp [request, hm]
  · simp [request, hm]

/-- **A retransmission.** -/
theorem Inv.resend (h : Inv s startSeq) {n : ℕ} (hn : n ∈ s.retxSeqs) :
    Inv ({ s with retxSeqs := s.retxSeqs.erase n }.willSendOutInterest n) startSeq := by
  have htaken := h.mem_taken_of_waiting hn
  refine h.of_request htaken rfl rfl rfl (fun m hm => ?_) (.inl ?_)
  · rw [request_willSendOutInterest, if_neg hm, request_erase_retxSeqs, if_neg hm]
  · rw [request_willSendOutInterest, if_pos rfl, request_erase_retxSeqs, if_pos rfl]
    exact ((h.known n htaken).resolve_right fun hdone => hdone.waiting hn).send

/-- **A new number.** -/
theorem Inv.sendNew (h : Inv s startSeq) (hseq : s.seq + 1 < 2 ^ 32) :
    Inv ({ s with seq := (s.seq + 1) % 2 ^ 32, taken := s.taken ++ [s.seq] }.willSendOutInterest s.seq) startSeq := by
  have hnew : s.seq ∉ s.taken := by
    rw [h.mem_taken_iff]
    omega
  have hlen : (s.taken ++ [s.seq]).length = s.taken.length + 1 := by
    rw [List.length_append, List.length_singleton]
  constructor
  case active => exact h.active
  case taken =>
    change s.taken ++ [s.seq] = List.range' startSeq (s.taken ++ [s.seq]).length
    rw [hlen, List.range'_1_concat, ← h.taken, h.seq]
  case seq =>
    change (s.seq + 1) % 2 ^ 32 = startSeq + (s.taken ++ [s.seq]).length
    rw [Nat.mod_eq_of_lt hseq, hlen, h.seq, Nat.add_assoc]
  case bound => exact Nat.mod_lt _ (by decide)
  case fresh =>
    intro m hm
    have hm' : m ∉ s.taken ∧ m ≠ s.seq := by
      change m ∉ s.taken ++ [s.seq] at hm
      simpa using hm
    rw [request_willSendOutInterest, if_neg hm'.2]
    exact h.fresh m hm'.1
  case known =>
    intro m hm
    rw [request_willSendOutInterest]
    rcases List.mem_append.mp hm with hm | hm
    · rw [if_neg (by rintro rfl; exact hnew hm)]
      exact h.known m hm
    · rw [if_pos (List.mem_singleton.mp hm)]
      refine .inl ?_
      change Request.Live ((s.request s.seq).send s.seq s.now)
      rw [h.fresh _ hnew]
      exact Request.live_send_new s.seq s.now

/-- **What `SendPacket` does**: a retransmission, a new number, or nothing. -/
theorem Inv.sendPacket_cases (h : Inv s startSeq) :
    (∃ n ∈ s.retxSeqs, s.sendPacket = { s with retxSeqs := s.retxSeqs.erase n }.willSendOutInterest n) ∨
      s.sendPacket =
        { s with seq := (s.seq + 1) % 2 ^ 32, taken := s.taken ++ [s.seq] }.willSendOutInterest s.seq ∨
      s.sendPacket = s := by
  rw [sendPacket, if_pos h.active, chooseSeq]
  rcases s.retxSeqs.eq_empty_or_nonempty with hempty | hne
  · have hfirst : s.firstRetx = 2 ^ 32 - 1 := by
      rw [firstRetx, hempty]
      rfl
    have herase : s.retxSeqs.erase s.firstRetx = s.retxSeqs := by
      rw [hempty, Finset.erase_empty]
    rw [herase, if_pos hfirst]
    refine .inr ?_
    by_cases hmax : s.seqMax ≠ 2 ^ 32 - 1 ∧ s.seqMax ≤ s.seq
    · rw [if_pos hmax]
      exact .inr rfl
    · rw [if_neg hmax]
      exact .inl rfl
  · have hfirst : s.firstRetx = s.retxSeqs.min' hne := by
      rw [firstRetx, ← Finset.coe_min' hne]
      rfl
    have hmem : s.firstRetx ∈ s.retxSeqs := hfirst ▸ Finset.min'_mem _ hne
    -- the greatest number was never taken
    have hvalid : s.firstRetx ≠ 2 ^ 32 - 1 := by
      have hlt := (h.mem_taken_iff.mp (h.mem_taken_of_waiting hmem)).2
      have := h.bound
      omega
    rw [if_neg hvalid]
    exact .inl ⟨s.firstRetx, hmem, rfl⟩

theorem Inv.sendPacket (h : Inv s startSeq) (hbound : startSeq + s.sendPacket.taken.length < 2 ^ 32) :
    Inv s.sendPacket startSeq := by
  rcases h.sendPacket_cases with ⟨n, hn, heq⟩ | heq | heq
  · rw [heq]
    exact h.resend hn
  · rw [heq] at hbound ⊢
    refine h.sendNew ?_
    change startSeq + (s.taken ++ [s.seq]).length < 2 ^ 32 at hbound
    rw [List.length_append, List.length_singleton] at hbound
    have := h.seq
    omega
  · rw [heq]
    exact h

/-- **A timeout.** -/
theorem Inv.onTimeout (h : Inv s startSeq) {n : ℕ} (hn : n ∈ s.seqTimeouts.entries.map SeqTimeout.seq) :
    Inv (onTimeout { s with seqTimeouts := s.seqTimeouts.erase n } n) startSeq := by
  have hsome : (s.request n).timeout.isSome := SeqTimeouts.find?_isSome_iff.mpr hn
  have htaken : n ∈ s.taken := by
    by_contra hfresh
    rw [h.fresh n hfresh] at hsome
    cases hsome
  refine h.of_request htaken rfl rfl rfl (fun m hm => ?_) (.inl ?_)
  · rw [request_onTimeout, if_neg hm]
  · rw [request_onTimeout, if_pos rfl]
    refine ((h.known n htaken).resolve_right fun hdone => ?_).timeOut
    rw [hdone.timeout] at hsome
    cases hsome

/-- **The loop keeps what each timeout keeps.** -/
theorem timeoutLoop_induction {P : Consumer → Prop} {rto : ℕ}
    (hstep : ∀ s n, P s → n ∈ s.seqTimeouts.entries.map SeqTimeout.seq →
      P (Consumer.onTimeout { s with seqTimeouts := s.seqTimeouts.erase n } n)) (fuel : ℕ) (h : P s) :
    P (timeoutLoop id (fun _ c => c) Consumer.onTimeout rto fuel s) := by
  induction fuel generalizing s with
  | zero => exact h
  | succ fuel ih =>
    rw [timeoutLoop]
    cases htake : (id s).takeExpired rto with
    | none => exact h
    | some p =>
      obtain ⟨n, c⟩ := p
      obtain ⟨hn, rfl⟩ := takeExpired_eq htake
      exact ih (hstep s n h hn)

theorem Inv.checkRetxTimeout (h : Inv s startSeq) (rto : ℕ) : Inv (s.checkRetxTimeout rto) startSeq :=
  timeoutLoop_induction (P := fun s => Inv s startSeq) (fun _ _ hs hn => hs.onTimeout hn) _ h

/-- **Data for a number that was requested.** -/
theorem Inv.onData (h : Inv s startSeq) {n : ℕ} (hn : n ∈ s.taken) : Inv (s.onData n) startSeq := by
  have hdata : s.onData n = { s.onData n with active := s.active, taken := s.taken, seq := s.seq } := by
    rw [Consumer.onData, if_pos h.active]
  refine h.of_request hn ?_ ?_ ?_ (fun m hm => ?_) (.inr ?_)
  · rw [hdata]
  · rw [hdata]
  · rw [hdata]
  · rw [request_onData _ h.active, if_neg hm]
  · rw [request_onData _ h.active, if_pos rfl]
    rcases h.known n hn with hlive | hdone
    · exact hlive.data
    · exact hdone.data

/-- When a call may be made: the application is active, and Data is for a number that was requested. -/
def Accepts (s : Consumer) : ConsumerOp → Prop
  | .onData n => n ∈ s.taken
  | .stopApplication => False
  | _ => True

instance (s : Consumer) (op : ConsumerOp) : Decidable (s.Accepts op) :=
  match op with
  | .onData n => inferInstanceAs (Decidable (n ∈ s.taken))
  | .stopApplication => inferInstanceAs (Decidable False)
  | .wait _ | .sendPacket | .checkRetxTimeout _ => inferInstanceAs (Decidable True)

/-- **One call keeps the invariant.** -/
theorem Inv.step (h : Inv s startSeq) {op : ConsumerOp} (hop : s.Accepts op)
    (hbound : startSeq + (s.step op).taken.length < 2 ^ 32) : Inv (s.step op) startSeq := by
  cases op with
  | wait time => exact ⟨h.active, h.taken, h.seq, h.bound, h.fresh, h.known⟩
  | sendPacket => exact h.sendPacket hbound
  | checkRetxTimeout rto => exact h.checkRetxTimeout rto
  | onData n => exact h.onData hop
  | stopApplication => exact hop.elim

/-- **A satisfied number is not sent again.** -/
theorem Inv.sent_step (h : Inv s startSeq) {op : ConsumerOp} (hop : s.Accepts op) {n : ℕ} (hn : n ∈ s.taken)
    (hdone : (s.request n).Done n) :
    ((s.step op).request n).Done n ∧ ((s.step op).request n).sent = (s.request n).sent := by
  have hkeep : ∀ s' : Consumer, s'.request n = s.request n →
      (s'.request n).Done n ∧ (s'.request n).sent = (s.request n).sent := by
    intro s' heq
    rw [heq]
    exact ⟨hdone, rfl⟩
  cases op with
  | wait time => exact ⟨hdone, rfl⟩
  | sendPacket =>
    refine hkeep s.sendPacket ?_
    rcases h.sendPacket_cases with ⟨k, hk, heq⟩ | heq | heq
    · have hne : n ≠ k := by
        rintro rfl
        exact hdone.waiting hk
      rw [heq, request_willSendOutInterest, if_neg hne, request_erase_retxSeqs, if_neg hne]
    · have hne : n ≠ s.seq := by
        have := (h.mem_taken_iff.mp hn).2
        omega
      rw [heq, request_willSendOutInterest, if_neg hne]
      rfl
    · rw [heq]
  | checkRetxTimeout rto =>
    refine hkeep (s.checkRetxTimeout rto) ?_
    refine timeoutLoop_induction (P := fun s' => s'.request n = s.request n) (fun s' k hs' hk => ?_) _ rfl
    have hne : n ≠ k := by
      rintro rfl
      have hsome : (s'.request n).timeout.isSome := SeqTimeouts.find?_isSome_iff.mpr hk
      rw [hs', hdone.timeout] at hsome
      cases hsome
    rw [request_onTimeout, if_neg hne, hs']
  | onData k =>
    change ((s.onData k).request n).Done n ∧ ((s.onData k).request n).sent = _
    rw [request_onData _ h.active]
    split_ifs with hnk
    · subst hnk
      exact ⟨hdone.data, rfl⟩
    · exact ⟨hdone, rfl⟩
  | stopApplication => exact hop.elim

theorem taken_isPrefix_step (op : ConsumerOp) : s.taken <+: (s.step op).taken := by
  cases op with
  | wait | stopApplication => exact List.prefix_refl _
  | sendPacket =>
    change s.taken <+: s.sendPacket.taken
    rw [Consumer.sendPacket]
    split_ifs
    · rw [chooseSeq]
      split_ifs
      · exact List.prefix_refl _
      · exact List.prefix_append _ _
      · exact List.prefix_refl _
    · exact List.prefix_refl _
  | checkRetxTimeout rto =>
    exact timeoutLoop_induction (P := fun s' => s.taken <+: s'.taken) (fun _ _ hs' _ => hs') _ (List.prefix_refl _)
  | onData n =>
    change s.taken <+: (s.onData n).taken
    rw [Consumer.onData]
    split_ifs
    · exact List.prefix_refl _
    · exact List.prefix_refl _

/-! ## Whole runs -/

section Run

variable {seqMax : ℕ} {ops : List ConsumerOp}

/-- **The invariant holds in every run** that takes no more than the numbers below `2 ^ 32 - 1`. -/
theorem inv_run (haccepts : ∀ pre op, pre ++ [op] <+: ops → (run startSeq seqMax pre).Accepts op)
    (hbound : startSeq + (run startSeq seqMax ops).taken.length < 2 ^ 32) : Inv (run startSeq seqMax ops) startSeq := by
  induction ops using List.reverseRecOn with
  | nil =>
    refine ⟨rfl, rfl, rfl, hbound, fun n _ => ?_, fun n hn => absurd hn List.not_mem_nil⟩
    simp [request, run, Consumer.start, SeqTimeouts.find?, OrdLib.OrdMap.find?, OrdLib.OrdMap.empty, OrdLib.lookupL, Rtt.find?]
  | append_singleton ops op ih =>
    have hpre : ops <+: ops ++ [op] := List.prefix_append _ _
    rw [run_concat] at hbound ⊢
    have hless : startSeq + (run startSeq seqMax ops).taken.length < 2 ^ 32 := by
      have := (taken_isPrefix_step (s := run startSeq seqMax ops) op).length_le
      omega
    exact (ih (fun pre op' hop => haccepts pre op' (hop.trans hpre)) hless).step
      (haccepts ops op (List.prefix_refl _)) hbound

/-- **A satisfied number is not sent again** in the rest of a run. -/
theorem sent_run (haccepts : ∀ pre op, pre ++ [op] <+: ops → (run startSeq seqMax pre).Accepts op)
    (hbound : startSeq + (run startSeq seqMax ops).taken.length < 2 ^ 32) {pre : List ConsumerOp} (hpre : pre <+: ops)
    {n : ℕ} (hn : (run startSeq seqMax pre).Satisfied n) :
    (run startSeq seqMax ops).Satisfied n ∧
      ((run startSeq seqMax ops).request n).sent = ((run startSeq seqMax pre).request n).sent := by
  induction ops using List.reverseRecOn with
  | nil =>
    rw [List.prefix_nil.mp hpre] at hn ⊢
    exact ⟨hn, rfl⟩
  | append_singleton ops op ih =>
    rcases List.prefix_concat_iff.mp hpre with rfl | hpre
    · exact ⟨hn, rfl⟩
    · have hops : ops <+: ops ++ [op] := List.prefix_append _ _
      have hinv' := inv_run haccepts hbound
      rw [run_concat] at hbound hinv' ⊢
      have hless : startSeq + (run startSeq seqMax ops).taken.length < 2 ^ 32 := by
        have := (taken_isPrefix_step (s := run startSeq seqMax ops) op).length_le
        omega
      have haccepts' : ∀ pre op', pre ++ [op'] <+: ops → (run startSeq seqMax pre).Accepts op' :=
        fun pre op' hop => haccepts pre op' (hop.trans hops)
      obtain ⟨hs, hsent⟩ := ih haccepts' hless hpre
      have hinv := inv_run haccepts' hless
      obtain ⟨htaken, hdone⟩ := hinv.satisfied_iff_done.mp hs
      obtain ⟨hdone', hsent'⟩ := hinv.sent_step (haccepts ops op (List.prefix_refl _)) htaken hdone
      exact ⟨hinv'.satisfied_iff_done.mpr ⟨(taken_isPrefix_step op).subset htaken, hdone'⟩, hsent'.trans hsent⟩

/-- **The containers partition the numbers** in every run of an active consumer, and a satisfied number is not sent
again. -/
theorem run_partitioned (haccepts : ∀ pre op, pre ++ [op] <+: ops → (run startSeq seqMax pre).Accepts op)
    (hbound : startSeq + (run startSeq seqMax ops).taken.length < 2 ^ 32) :
    Partitioned (run startSeq seqMax ops) ∧ ∀ pre, pre <+: ops → ∀ n, (run startSeq seqMax pre).Satisfied n →
      (run startSeq seqMax ops).transmissions n = (run startSeq seqMax pre).transmissions n := by
  refine ⟨(inv_run haccepts hbound).partitioned, fun pre hpre n hn => ?_⟩
  rw [transmissions, transmissions, List.countP_eq_length_filter, List.countP_eq_length_filter]
  exact congrArg List.length (sent_run haccepts hbound hpre hn).2

/-- The second of two requests times out and is sent again; its Data comes late and twice. -/
def lateData : List ConsumerOp :=
  [.sendPacket, .wait 10, .sendPacket, .onData 0, .wait 20, .checkRetxTimeout 20, .sendPacket, .wait 5, .onData 1,
    .onData 1]

theorem run_partitioned_lateData :
    (∀ pre op, pre ++ [op] <+: lateData → (run 0 (2 ^ 32 - 1) pre).Accepts op) ∧
      0 + (run 0 (2 ^ 32 - 1) lateData).taken.length < 2 ^ 32 ∧ Partitioned (run 0 (2 ^ 32 - 1) lateData) ∧
      (run 0 (2 ^ 32 - 1) lateData).firstDelays = [(0, 10, 1), (1, 25, 2)] ∧
      (run 0 (2 ^ 32 - 1) lateData).rtt.samples = [(0, 10)] := by
  have haccepts : ∀ pre op, pre ++ [op] <+: lateData → (run 0 (2 ^ 32 - 1) pre).Accepts op :=
    RunLib.forall_step_iff_forall_fin.mpr (by decide)
  have hbound : 0 + (run 0 (2 ^ 32 - 1) lateData).taken.length < 2 ^ 32 := by decide
  exact ⟨haccepts, hbound, (run_partitioned haccepts hbound).1, by decide, by decide⟩

/-- Number 0 is sent, and sent again after each of `k` timeouts. -/
def retransmissions : ℕ → List ConsumerOp
  | 0 => [.sendPacket]
  | k + 1 => retransmissions k ++ [.wait 200, .checkRetxTimeout 200, .sendPacket]

/-- Number 0 is sent, and sent again after each of `k` timeouts, before its Data comes. -/
def answered (k : ℕ) : List ConsumerOp := retransmissions k ++ [.onData 0]

/-- A state in which number 0 alone was requested, `k + 1` times. -/
structure Requested (s : Consumer) (k : ℕ) : Prop where
  active : s.active = true
  taken : s.taken = [0]
  retxSeqs : s.retxSeqs = ∅
  entries : s.seqTimeouts.entries = [⟨0, s.now⟩]
  transmissions : s.transmissions 0 = k + 1

theorem checkRetxTimeout_singleton {n time rto : ℕ} (hentries : s.seqTimeouts.entries = [⟨n, time⟩])
    (hrto : time + rto ≤ s.now) :
    s.checkRetxTimeout rto = Consumer.onTimeout { s with seqTimeouts := s.seqTimeouts.erase n } n := by
  have htake : (id s).takeExpired rto = some (n, { s with seqTimeouts := s.seqTimeouts.erase n }) := by
    rw [id, takeExpired, hentries]
    exact if_pos hrto
  rw [Consumer.checkRetxTimeout, hentries, List.length_singleton, timeoutLoop, htake]
  rfl

theorem sendPacket_singleton {n : ℕ} (hactive : s.active = true) (hretx : s.retxSeqs = {n}) (hn : n ≠ 2 ^ 32 - 1) :
    s.sendPacket = { s with retxSeqs := ∅ }.willSendOutInterest n := by
  have hfirst : s.firstRetx = n := by
    rw [firstRetx, hretx, Finset.min_singleton]
    rfl
  have herase : s.retxSeqs.erase s.firstRetx = ∅ := by
    rw [hfirst, hretx, Finset.erase_singleton]
  rw [Consumer.sendPacket, if_pos hactive, chooseSeq, herase, hfirst, if_neg hn]

theorem Requested.round {k : ℕ} (h : Requested s k) :
    Requested (((s.step (.wait 200)).step (.checkRetxTimeout 200)).step .sendPacket) (k + 1) := by
  have hcheck : (s.step (.wait 200)).step (.checkRetxTimeout 200) = _ :=
    checkRetxTimeout_singleton (s := s.step (.wait 200)) h.entries le_rfl
  have hsend : (Consumer.onTimeout { s.step (.wait 200) with seqTimeouts := s.seqTimeouts.erase 0 } 0).sendPacket = _ :=
    sendPacket_singleton h.active (congrArg (insert 0) h.retxSeqs) (by decide)
  have herase : (s.seqTimeouts.erase 0).entries = [] := by
    simp [SeqTimeouts.erase, h.entries]
  rw [hcheck]
  change Requested (Consumer.onTimeout { s.step (.wait 200) with seqTimeouts := s.seqTimeouts.erase 0 } 0).sendPacket _
  rw [hsend]
  constructor
  case active => exact h.active
  case taken => exact h.taken
  case retxSeqs => rfl
  case entries =>
    change ((s.seqTimeouts.erase 0).insert 0 (s.now + 200)).entries = _
    rw [SeqTimeouts.insert]
    simp only [herase]
    rfl
  case transmissions =>
    have hk : s.sent.countP (fun e => e.seq = 0) = k + 1 := h.transmissions
    change (s.sent ++ [_]).countP _ = k + 1 + 1
    rw [List.countP_append, hk]
    rfl

theorem requested_run (k : ℕ) : Requested (run 0 (2 ^ 32 - 1) (retransmissions k)) k := by
  induction k with
  | zero => exact ⟨rfl, rfl, rfl, rfl, rfl⟩
  | succ k ih =>
    have hrun : run 0 (2 ^ 32 - 1) (retransmissions (k + 1)) =
        (((run 0 (2 ^ 32 - 1) (retransmissions k)).step (.wait 200)).step (.checkRetxTimeout 200)).step .sendPacket := by
      rw [retransmissions, run, List.foldl_append]
      rfl
    rw [hrun]
    exact ih.round

theorem accepts_of_mem_retransmissions {k : ℕ} {op : ConsumerOp} (hop : op ∈ retransmissions k) (s : Consumer) :
    s.Accepts op := by
  induction k with
  | zero =>
    rw [List.mem_singleton.mp hop]
    trivial
  | succ k ih =>
    rw [retransmissions, List.mem_append] at hop
    rcases hop with hop | hop
    · exact ih hop
    · simp only [List.mem_cons, List.not_mem_nil, or_false] at hop
      rcases hop with rfl | rfl | rfl
      · trivial
      · trivial
      · trivial

theorem accepts_answered (k : ℕ) (pre : List ConsumerOp) (op : ConsumerOp)
    (h : pre ++ [op] <+: answered k) : (run 0 (2 ^ 32 - 1) pre).Accepts op := by
  rcases List.prefix_concat_iff.mp h with heq | hpre
  · obtain ⟨rfl, hop⟩ := List.append_inj' heq rfl
    rw [List.singleton_inj.mp hop]
    change 0 ∈ (run 0 (2 ^ 32 - 1) (retransmissions k)).taken
    rw [(requested_run k).taken]
    exact List.mem_singleton_self 0
  · exact accepts_of_mem_retransmissions (hpre.subset (List.mem_append_right _ List.mem_cons_self)) _

theorem firstDelay_answered (k : ℕ) :
    0 + (run 0 (2 ^ 32 - 1) (answered k)).taken.length < 2 ^ 32 ∧
      (run 0 (2 ^ 32 - 1) (answered k)).transmissions 0 = k + 1 ∧
      ∃ delay, ((run 0 (2 ^ 32 - 1) (answered k)).firstDelays.filter fun p => p.1 = 0) =
        [(0, delay, (k + 1) % 2 ^ 32)] := by
  have hrequested := requested_run k
  have hdata : ∀ s : Consumer, s.active = true → (s.onData 0).taken = s.taken ∧ (s.onData 0).sent = s.sent ∧
      (s.onData 0).Satisfied 0 := by
    intro s hactive
    rw [Consumer.onData, if_pos hactive]
    exact ⟨rfl, rfl, ⟨0, s.now⟩, List.mem_append_right _ List.mem_cons_self, rfl⟩
  obtain ⟨htaken, hsent, hsatisfied⟩ := hdata _ hrequested.active
  have hrun : run 0 (2 ^ 32 - 1) (answered k) =
      (run 0 (2 ^ 32 - 1) (retransmissions k)).onData 0 := run_concat _ _ _ _
  have hbound : 0 + (run 0 (2 ^ 32 - 1) (answered k)).taken.length < 2 ^ 32 := by
    rw [hrun, htaken, hrequested.taken]
    decide
  have htransmissions : (run 0 (2 ^ 32 - 1) (answered k)).transmissions 0 = k + 1 := by
    rw [hrun, transmissions, hsent]
    exact hrequested.transmissions
  have hpartitioned := (inv_run (accepts_answered k) hbound).partitioned
  obtain ⟨e, d, -, -, hdelay⟩ := hpartitioned.firstDelay 0 (hrun ▸ hsatisfied)
  rw [htransmissions] at hdelay
  exact ⟨hbound, htransmissions, _, hdelay⟩

/-- **The number of transmissions wraps**: of a number that was sent `2 ^ 32` times, the trace source says 0. -/
theorem not_run_partitioned :
    (∀ pre op, pre ++ [op] <+: answered (2 ^ 32 - 1) → (run 0 (2 ^ 32 - 1) pre).Accepts op) ∧
      0 + (run 0 (2 ^ 32 - 1) (answered (2 ^ 32 - 1))).taken.length < 2 ^ 32 ∧
      (run 0 (2 ^ 32 - 1) (answered (2 ^ 32 - 1))).transmissions 0 = 2 ^ 32 ∧
      ∃ delay, ((run 0 (2 ^ 32 - 1) (answered (2 ^ 32 - 1))).firstDelays.filter fun p => p.1 = 0) =
        [(0, delay, 0)] := by
  obtain ⟨hbound, htransmissions, delay, hdelay⟩ := firstDelay_answered (2 ^ 32 - 1)
  have hsucc : 2 ^ 32 - 1 + 1 = 2 ^ 32 := by decide
  rw [hsucc] at htransmissions
  rw [hsucc, Nat.mod_self] at hdelay
  exact ⟨accepts_answered _, hbound, htransmissions, delay, hdelay⟩

end Run

end Consumer

end Ns3Ndn
