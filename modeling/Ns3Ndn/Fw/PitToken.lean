import Ns3Ndn.Fw.Delivery

/-!
# PIT tokens

A downstream expects the PIT token of its Interest on the Data. `Strategy::sendData` attaches the token of
the in-record to a copy of the Data, and a Content Store hit that of the Interest, but the loop at the end of
`onIncomingData` sends every downstream the Data as it came in.

* **`trace_tokensReturned_iff`**: the tokens are returned just if all downstreams ask for the token that the
  Data has.
-/

namespace Ns3Ndn.Forwarder

open OrdLib

variable {κ δ σ : Type} {s t : Forwarder κ δ σ}

/-! ## Runs with a log -/

/-- **A run**: the state it reaches, and the events with the states in which they happened. In between the
strategy may act on its own. -/
inductive Trace (E : Env κ δ) (S : Strategy κ δ σ) :
    Forwarder κ δ σ → List (Forwarder κ δ σ × FwEvent) → Prop
  | init {s : Forwarder κ δ σ} : s.Initial → Trace E S s []
  | step {s : Forwarder κ δ σ} {log : List (Forwarder κ δ σ × FwEvent)} (e : FwEvent) :
    Trace E S s log → Trace E S (s.step E S e) (log ++ [(s, e)])
  | act {s t : Forwarder κ δ σ} {log : List (Forwarder κ δ σ × FwEvent)} :
    Trace E S s log → s.Acts t → Trace E S t log

variable {E : Env κ δ} {S : Strategy κ δ σ} {log : List (Forwarder κ δ σ × FwEvent)}

theorem Trace.reachable (h : Trace E S s log) : Reachable E S s := by
  induction h with
  | init h => exact .init h
  | step e _ ih => exact ih.step e
  | act _ hacts ih => exact ih.act hacts

theorem Trace.reachable_of_mem (h : Trace E S s log) : ∀ p ∈ log, Reachable E S p.1 := by
  induction h with
  | init h => simp
  | @step s log e h ih =>
    intro p hp
    rcases List.mem_append.mp hp with hp | hp
    · exact ih p hp
    · rw [List.mem_singleton.mp hp]
      exact h.reachable
  | act _ _ ih => exact ih

def runLog (E : Env κ δ) (S : Strategy κ δ σ) (s : Forwarder κ δ σ) :
    List FwEvent → List (Forwarder κ δ σ × FwEvent)
  | [] => []
  | e :: es => (s, e) :: runLog E S (s.step E S e) es

theorem Trace.run (h : Trace E S s log) (es : List FwEvent) :
    Trace E S (s.run E S es) (log ++ runLog E S s es) := by
  induction es generalizing s log with
  | nil => simpa [runLog, Forwarder.run] using h
  | cons e es ih =>
    rw [runLog, List.append_cons]
    exact ih (h.step e)

/-- **The PIT tokens are returned** by an event: Data that is sent because of in-records carries the tokens
of the Interests in them, and a hit in the Content Store carries the token of the Interest. -/
def TokensReturned (E : Env κ δ) (S : Strategy κ δ σ) (s : Forwarder κ δ σ) (e : FwEvent) : Prop :=
  match e with
  | .interest ingress interest =>
    ∀ face, s.faces ingress = some face → ∀ s' interest' id data,
      s.incomingInterest E interest ingress face = .hit s' interest' id data →
        ∀ f d, .data f d ∈ s.sentSince (s.step E S e) → f = ingress ∧ d.pitToken = interest.pitToken
  | .data _ _ data =>
    ∀ f d, .data f d ∈ s.sentSince (s.step E S e) → ∀ id, s.Matches data id →
      ∀ r ∈ s.pendingRecords id, r.face = f → d.pitToken = r.interest.pitToken
  | _ => True

/-- Every downstream to which Data is sent asks for the token that the Data has. -/
def TokensAgree (s : Forwarder κ δ σ) (e : FwEvent) : Prop :=
  match e with
  | .data ingress endpoint data =>
    ∀ face, s.faces ingress = some face → s.deliverable data ingress = true →
      ∀ id ∈ s.pit.findAllDataMatches s.pitOrder data, ∀ r ∈ s.pendingRecords id,
        s.deliverable data r.face = true →
          ¬ (r.face = ingress ∧ endpoint = 0 ∧ face.linkType ≠ .adHoc) →
            r.interest.pitToken = data.pitToken
  | _ => True

theorem incomingInterest_hit {interest interest' : Interest} {ingress : FaceId} {face : Face}
    {s' : Forwarder κ δ σ} {id : ℕ} {data : Data}
    (h : s.incomingInterest E interest ingress face = .hit s' interest' id data) :
    s'.sent = s.sent ∧ interest'.pitToken = interest.pitToken ∧
      ∃ e, s'.pit.find? id = some e ∧ e.inRecords = [] := by
  unfold incomingInterest at h
  dsimp only at h
  split_ifs at h
  unfold lookupTables at h
  generalize hi : s.stripForwardingHint { interest with hopLimit := interest.hopLimit.map (· - 1) } = i at h
  have htoken : i.pitToken = interest.pitToken := by
    rw [← hi, stripForwardingHint]
    split_ifs <;> rfl
  have hinsert : (s.pitInsert i).1.sent = s.sent ∧
      (s.pitInsert i).1.pit.find? (s.pitInsert i).2.1 = some (s.pitInsert i).2.2 := by
    rcases s.pitInsert_cases i with ⟨id, e, he, heq⟩ | ⟨-, heq⟩
    · rw [heq]
      exact ⟨rfl, he⟩
    · rw [heq]
      exact ⟨rfl, OrdMap.find?_insert_self ..⟩
  generalize s.pitInsert i = r at h hinsert
  obtain ⟨u, id', e⟩ := r
  dsimp only at h hinsert
  split_ifs at h with _ hempty
  split at h
  case h_1 d cs hfind =>
    injection h with hu hinterest hid hd
    subst hu hinterest hid hd
    exact ⟨hinsert.1, htoken, e, hinsert.2, List.isEmpty_iff.mp hempty⟩
  · cases h

theorem sendData_sent_of_noInRecords {e : PitEntry} {id : ℕ} (he : s.pit.find? id = some e)
    (hin : e.inRecords = []) (data : Data) (egress : FaceId) :
    (s.sendData data egress id).sent =
      s.sent ++ if s.deliverable data egress then [.data egress data] else [] := by
  unfold sendData
  rw [he]
  have htoken : (e.getInRecord egress).bind (fun r => r.interest.pitToken) = none := by
    rw [PitEntry.getInRecord, hin]
    rfl
  dsimp only
  rw [htoken]
  dsimp only
  rw [onOutgoingData_eq]
  have hdel : (s.modifyEntry id fun e => e.deleteInRecord egress).deliverable data egress =
      s.deliverable data egress := rfl
  rw [hdel]
  split_ifs
  · rfl
  · simp [modifyEntry, setExpiryTimer]
  · rfl
  · simp [modifyEntry]

/-- **A hit in the Content Store returns the token of the Interest.** -/
theorem tokensReturned_interest (hS : Lawful S) (s : Forwarder κ δ σ) (ingress : FaceId)
    (interest : Interest) : s.TokensReturned E S (.interest ingress interest) := by
  intro face hface s' interest' id data hhit f d hd
  obtain ⟨hsent, htoken, e, he, hin⟩ := incomingInterest_hit hhit
  rw [step, hface] at hd
  dsimp only at hd
  rw [onIncomingInterest, hhit] at hd
  dsimp only [onContentStoreHit] at hd
  set d' : Data := { data with pitToken := interest'.pitToken }
  set b := (s'.modifyEntry id fun e =>
    { e with isSatisfied := true, dataFreshnessPeriod := data.freshnessPeriod }).setExpiryTimer id 0
  have hb : b.pit.find? id = some { e with
      isSatisfied := true, dataFreshnessPeriod := data.freshnessPeriod,
      expiryTimer := some s'.nextEvent } := by
    change ((s'.pit.modify id _).modify id _).find? id = _
    rw [OrdMap.find?_modify, if_pos rfl, OrdMap.find?_modify, if_pos rfl, he]
    rfl
  obtain ⟨-, hsame⟩ := hS.beforeSatisfyInterest b d' 254 id (by rw [hb]; rfl)
  have hrecords := hsame.records id
  rw [hb, Option.map_some] at hrecords
  obtain ⟨e', he', hrecords'⟩ := Option.map_eq_some_iff.mp hrecords
  have hin' : e'.inRecords = [] := (congrArg (fun r => r.2.1) hrecords').trans hin
  have hsent' : (S.beforeSatisfyInterest b d' 254 id).sent = s.sent := hsame.sent.trans hsent
  have hdata := sendData_sent_of_noInRecords he' hin' d' ingress
  rw [hsent'] at hdata
  rw [sentSince_of_append hdata] at hd
  split_ifs at hd
  · obtain ⟨rfl, rfl⟩ := Sent.data.inj (List.mem_singleton.mp hd)
    exact ⟨rfl, htoken⟩
  · cases hd

/-! ## Incoming Data -/

theorem Listed.tokensReturned_data_iff (hS : Lawful S) (h : s.Listed) (ingress : FaceId) (endpoint : ℕ)
    (data : Data) :
    s.TokensReturned E S (.data ingress endpoint data) ↔ s.TokensAgree (.data ingress endpoint data) := by
  cases hface : s.faces ingress with
  | none =>
    have hnone : s.sentSince (s.step E S (.data ingress endpoint data)) = [] := by
      rw [step, hface]
      exact sentSince_of_append (List.append_nil _).symm
    simp [TokensReturned, TokensAgree, hnone, hface]
  | some face =>
    constructor
    · intro hreturned face' hface' hdel id hid r hr hdelr hback
      rw [hface, Option.some_inj] at hface'
      subst hface'
      have hmatch := (h.mem_matches data).mp hid
      have hserved : r.face ∈ s.served data ingress face endpoint :=
        (h.mem_served data ingress face endpoint).mpr
          ⟨⟨id, hmatch, List.mem_map.mpr ⟨r, hr, rfl⟩⟩, hback⟩
      exact (hreturned r.face data ((h.mem_sentSince_data hS data hface endpoint).mpr
        ⟨r.face, rfl, hdel, hdelr, hserved⟩) id hmatch r hr rfl).symm
    · intro hagree f d hd id hmatch r hr hrf
      obtain ⟨f', hpacket, hdel, hdelr, hserved⟩ := (h.mem_sentSince_data hS data hface endpoint).mp hd
      obtain ⟨rfl, rfl⟩ := Sent.data.inj hpacket
      subst hrf
      have hback := ((h.mem_served d ingress face endpoint).mp hserved).2
      exact (hagree face hface hdel id ((h.mem_matches d).mpr hmatch) r hr hdelr hback).symm

/-- **Along a run, the PIT tokens are returned just if the downstreams of each Data packet ask for the token
that it has.** -/
theorem trace_tokensReturned_iff (hS : Lawful S) (h : Trace E S s log) :
    (∀ p ∈ log, p.1.TokensReturned E S p.2) ↔ ∀ p ∈ log, p.1.TokensAgree p.2 := by
  refine forall₂_congr fun p hp => ?_
  have hlisted := reachable_listed hS (h.reachable_of_mem p hp)
  obtain ⟨s, e⟩ := p
  cases e with
  | interest ingress interest =>
    exact iff_of_true (tokensReturned_interest hS s ingress interest) trivial
  | data ingress endpoint data => exact hlisted.tokensReturned_data_iff hS ingress endpoint data
  | nack ingress nack => exact Iff.rfl
  | elapse duration => exact Iff.rfl
  | expire event => exact Iff.rfl
  | addFace face => exact Iff.rfl
  | removeFace face => exact Iff.rfl
  | setState face state => exact Iff.rfl
  | addNextHop prefixName face cost => exact Iff.rfl
  | removeNextHop prefixName face => exact Iff.rfl

def tokenLost : List FwEvent :=
  [.addFace linkFace, .addFace linkFace, .addNextHop [] 257 1,
    .interest 256 { name := nameA, nonce := 1, pitToken := some [7] }, .data 257 0 { name := nameA }]

/-- The Data goes out without the token. -/
theorem not_tokensReturned_tokenLost :
    ∃ (s : Forwarder Unit (List (Name × UInt32)) QLearning) (log : _),
      Trace bareEnv qLearningStrategy s log ∧
        ¬ ∀ p ∈ log, p.1.TokensReturned bareEnv qLearningStrategy p.2 := by
  have htrace := Trace.run (E := bareEnv) (S := qLearningStrategy)
    (.init (s := bareForwarder) ⟨rfl, rfl, rfl, rfl, rfl, rfl, rfl⟩) tokenLost
  refine ⟨_, _, htrace, fun h => ?_⟩
  have hlost := h (bareForwarder.run bareEnv qLearningStrategy (tokenLost.take 4),
    .data 257 0 { name := nameA }) (.tail _ (.tail _ (.tail _ (.tail _ (.head _)))))
  have hmatch : (bareForwarder.run bareEnv qLearningStrategy (tokenLost.take 4)).Matches { name := nameA } 0 :=
    ⟨_, rfl, by decide⟩
  have htoken := hlost 256 { name := nameA } (by decide) 0 hmatch
    ⟨256, 1, 0, recordExpiry 0 { name := nameA, nonce := 1, pitToken := some [7] },
      { name := nameA, nonce := 1, pitToken := some [7] }⟩ (by decide) rfl
  cases htoken

/-- Without a token there is nothing to lose. -/
theorem tokensReturned_pendingA :
    (∀ p ∈ runLog bareEnv qLearningStrategy bareForwarder (pendingA ++ [.data 257 0 { name := nameA }]),
        p.1.TokensAgree p.2) ∧
      ∀ p ∈ runLog bareEnv qLearningStrategy bareForwarder (pendingA ++ [.data 257 0 { name := nameA }]),
        p.1.TokensReturned bareEnv qLearningStrategy p.2 := by
  have htrace := Trace.run (E := bareEnv) (S := qLearningStrategy)
    (.init (s := bareForwarder) ⟨rfl, rfl, rfl, rfl, rfl, rfl, rfl⟩)
    (pendingA ++ [.data 257 0 { name := nameA }])
  refine and_iff_left_of_imp (trace_tokensReturned_iff qLearningStrategy_lawful htrace).mpr |>.mpr fun p hp => ?_
  simp only [pendingA, List.cons_append, List.nil_append, runLog, List.mem_cons, List.not_mem_nil,
    or_false] at hp
  rcases hp with rfl | rfl | rfl | rfl | rfl
  · trivial
  · trivial
  · trivial
  · trivial
  · have hnone : ∀ id ∈ (bareForwarder.run bareEnv qLearningStrategy pendingA).pit.findAllDataMatches
        (bareForwarder.run bareEnv qLearningStrategy pendingA).pitOrder { name := nameA },
        ∀ r ∈ (bareForwarder.run bareEnv qLearningStrategy pendingA).pendingRecords id,
          r.interest.pitToken = none := by
      decide
    exact fun face _ _ id hid r hr _ _ => hnone id hid r hr

end Ns3Ndn.Forwarder
