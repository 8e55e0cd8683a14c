import Ns3Ndn.Fw.Delivery

/-!
# The end of `Strategy::sendData`

`Strategy::sendData` deletes the in-record of the face it sends to and closes the entry down when no in-record is
left. It returns in the middle, with the result of `onOutgoingData`, when the in-record had a PIT token, and
runs off its end, without a result, when it had none.

* `ClosedIfLast`: an entry without in-records is satisfied and expires now;
* **`sendData_closes_iff`**: when both hold.
-/

namespace Ns3Ndn

open OrdLib

def PitEntry.tokenOf (e : PitEntry) (face : FaceId) : Option Bytes :=
  (e.getInRecord face).bind fun r => r.interest.pitToken

namespace Forwarder

variable {κ δ σ : Type} {s t : Forwarder κ δ σ}

/-- What `Strategy::sendData` returns; `none` where control runs off the end of the function. -/
def sendDataResult (s : Forwarder κ δ σ) (data : Data) (egress : FaceId) (id : ℕ) : Option Bool :=
  match s.pit.find? id with
  | none => none
  | some e =>
    let pitToken := (e.getInRecord egress).bind fun r => r.interest.pitToken
    let s := s.modifyEntry id fun e => e.deleteInRecord egress
    match pitToken with
    | some token => some (s.onOutgoingData { data with pitToken := some token } egress).2
    | none => none

def ExpiresNow (s : Forwarder κ δ σ) (id : ℕ) : Prop :=
  ∃ e, s.pit.find? id = some e ∧
    ∃ ev ∈ s.expiryEvents, e.expiryTimer = some ev.id ∧ ev.pitEntry = id ∧ ev.due = s.now

/-- **An entry that has no in-records is closed**: it is satisfied and expires now. -/
def ClosedIfLast (s : Forwarder κ δ σ) (id : ℕ) : Prop :=
  ∀ e, s.pit.find? id = some e → e.inRecords = [] → e.isSatisfied = true ∧ s.ExpiresNow id

/-! ## What a call leaves -/

/-- Sending a packet does not touch the entries. -/
theorem onOutgoingData_tables (s : Forwarder κ δ σ) (data : Data) (egress : FaceId) :
    (s.onOutgoingData data egress).1.pit = s.pit ∧ (s.onOutgoingData data egress).1.now = s.now ∧
      (s.onOutgoingData data egress).1.expiryEvents = s.expiryEvents := by
  rw [onOutgoingData_eq]
  split_ifs <;> exact ⟨rfl, rfl, rfl⟩

/-- The result depends on the face and on the name only. -/
theorem onOutgoingData_result (s : Forwarder κ δ σ) (data : Data) (token : Option Bytes) (id : ℕ)
    (f : PitEntry → PitEntry) (egress : FaceId) :
    ((s.modifyEntry id f).onOutgoingData { data with pitToken := token } egress).2 =
      (s.onOutgoingData data egress).2 := by
  unfold onOutgoingData
  have hfaces : (s.modifyEntry id f).faces egress = s.faces egress := rfl
  rw [hfaces]
  cases s.faces egress with
  | none => rfl
  | some face =>
    dsimp only
    split_ifs <;> rfl

theorem closedIfLast_congr {u : Forwarder κ δ σ} (hpit : t.pit = u.pit) (hnow : t.now = u.now)
    (hevents : t.expiryEvents = u.expiryEvents) (id : ℕ) : t.ClosedIfLast id ↔ u.ClosedIfLast id := by
  unfold ClosedIfLast ExpiresNow
  rw [hpit, hnow, hevents]

theorem closedIfLast_delete_iff {id : ℕ} {e : PitEntry} (he : s.pit.find? id = some e) (face : FaceId) :
    (s.modifyEntry id fun e => e.deleteInRecord face).ClosedIfLast id ↔
      (e.deleteInRecord face).inRecords ≠ [] ∨ e.isSatisfied = true ∧ s.ExpiresNow id := by
  have hfind : (s.modifyEntry id fun e => e.deleteInRecord face).pit.find? id = some (e.deleteInRecord face) := by
    rw [modifyEntry, OrdMap.find?_modify, if_pos rfl, he]
    rfl
  have hexpires : (s.modifyEntry id fun e => e.deleteInRecord face).ExpiresNow id ↔ s.ExpiresNow id := by
    unfold ExpiresNow
    simp only [hfind, he, Option.some_inj, exists_eq_left']
    rfl
  unfold ClosedIfLast
  simp only [hfind, Option.some_inj, forall_eq', hexpires]
  exact imp_iff_not_or

/-- `setExpiryTimer` and `isSatisfied = true` close an entry. -/
theorem closedIfLast_close (s : Forwarder κ δ σ) (id : ℕ) :
    ((s.setExpiryTimer id 0).modifyEntry id fun e => { e with isSatisfied := true }).ClosedIfLast id := by
  intro e he _
  have hfind : ((s.setExpiryTimer id 0).modifyEntry id fun e => { e with isSatisfied := true }).pit.find? id =
      (s.pit.find? id).map fun e => { e with expiryTimer := some s.nextEvent, isSatisfied := true } := by
    rw [modifyEntry, OrdMap.find?_modify, if_pos rfl, setExpiryTimer]
    dsimp only
    rw [OrdMap.find?_modify, if_pos rfl, Option.map_map]
    rfl
  have hmap := hfind
  rw [he] at hmap
  obtain ⟨e', -, rfl⟩ := Option.map_eq_some_iff.mp hmap.symm
  refine ⟨rfl, _, he, ⟨s.nextEvent, id, s.now + 0 * ms⟩, List.mem_append_right _ (List.mem_singleton_self _),
    rfl, rfl, ?_⟩
  rw [Nat.zero_mul, Nat.add_zero]
  rfl

/-! ## The two parts -/

section SendData

variable {id : ℕ} {e : PitEntry} (he : s.pit.find? id = some e) (data : Data) (egress : FaceId)
include he

theorem closedIfLast_sendData_iff :
    (s.sendData data egress id).ClosedIfLast id ↔
      e.tokenOf egress = none ∨ (e.deleteInRecord egress).inRecords ≠ [] ∨
        e.isSatisfied = true ∧ s.ExpiresNow id := by
  have hsend : ∀ data : Data, ((s.modifyEntry id fun e => e.deleteInRecord egress).onOutgoingData data
      egress).1.ClosedIfLast id ↔ (e.deleteInRecord egress).inRecords ≠ [] ∨
        e.isSatisfied = true ∧ s.ExpiresNow id := fun data => by
    obtain ⟨hpit, hnow, hevents⟩ :=
      (s.modifyEntry id fun e => e.deleteInRecord egress).onOutgoingData_tables data egress
    rw [closedIfLast_congr hpit hnow hevents, closedIfLast_delete_iff he]
  unfold sendData PitEntry.tokenOf
  rw [he]
  dsimp only
  cases htoken : (e.getInRecord egress).bind fun r => r.interest.pitToken with
  | some token => simpa using hsend _
  | none =>
    refine iff_of_true ?_ (Or.inl rfl)
    dsimp only
    by_cases hlast : (e.deleteInRecord egress).inRecords.isEmpty = true
    · rw [if_pos hlast]
      exact closedIfLast_close _ id
    · rw [if_neg hlast]
      exact (hsend data).mpr (Or.inl fun hnil => hlast (List.isEmpty_iff.mpr hnil))

theorem sendDataResult_eq_iff :
    s.sendDataResult data egress id = some (s.onOutgoingData data egress).2 ↔ e.tokenOf egress ≠ none := by
  unfold sendDataResult PitEntry.tokenOf
  rw [he]
  dsimp only
  cases htoken : (e.getInRecord egress).bind fun r => r.interest.pitToken with
  | some token => simp [onOutgoingData_result]
  | none => simp

/-- **`sendData` closes the entry with its last in-record, and returns the result of `onOutgoingData`, exactly
when** the in-record had a PIT token and another in-record is left, or the entry was closed before. -/
theorem sendData_closes_iff :
    (s.sendData data egress id).ClosedIfLast id ∧
        s.sendDataResult data egress id = some (s.onOutgoingData data egress).2 ↔
      e.tokenOf egress ≠ none ∧
        ((e.deleteInRecord egress).inRecords ≠ [] ∨ e.isSatisfied = true ∧ s.ExpiresNow id) := by
  rw [closedIfLast_sendData_iff he, sendDataResult_eq_iff he]
  tauto

end SendData

/-- A forwarder with a default route to the last of three faces, and Interests for `ndn:/a` from the first two. -/
def pendingTokens (token token' : Option Bytes) : Forwarder Unit (List (Name × UInt32)) QLearning :=
  bareForwarder.run bareEnv qLearningStrategy
    [.addFace linkFace, .addFace linkFace, .addFace linkFace, .addNextHop [] 258 1,
      .interest 256 { name := nameA, nonce := 1, pitToken := token },
      .interest 257 { name := nameA, nonce := 2, pitToken := token' }]

/-- The first of two downstreams, with a token. -/
theorem sendData_closes_pendingTokens :
    ((pendingTokens (some [7]) (some [8])).sendData { name := nameA } 256 0).ClosedIfLast 0 ∧
      (pendingTokens (some [7]) (some [8])).sendDataResult { name := nameA } 256 0 =
        some ((pendingTokens (some [7]) (some [8])).onOutgoingData { name := nameA } 256).2 := by
  have hentry : ((pendingTokens (some [7]) (some [8])).pit.find? 0).any fun e =>
      decide (e.tokenOf 256 ≠ none ∧ (e.deleteInRecord 256).inRecords ≠ []) := by decide
  obtain ⟨e, he, hcond⟩ := Option.any_eq_true .. |>.mp hentry
  obtain ⟨htoken, hrest⟩ := of_decide_eq_true hcond
  exact (sendData_closes_iff he { name := nameA } 256).mpr ⟨htoken, Or.inl hrest⟩

/-- **The last downstream leaves the entry open when it asked with a token, and there is no result when it asked
without one.** -/
theorem not_sendData_closes :
    (¬ (((pendingTokens (some [7]) (some [8])).sendData { name := nameA } 256 0).sendData { name := nameA } 257
        0).ClosedIfLast 0) ∧
      ((pendingTokens none none).sendDataResult { name := nameA } 256 0 = none ∧
        ((pendingTokens none none).onOutgoingData { name := nameA } 256).2 = true) := by
  refine ⟨fun h => ?_, by decide⟩
  have hentry : ((((pendingTokens (some [7]) (some [8])).sendData { name := nameA } 256 0).sendData
      { name := nameA } 257 0).pit.find? 0).any fun e => decide (e.inRecords = [] ∧ e.isSatisfied = false) := by
    decide
  obtain ⟨e, he, hcond⟩ := Option.any_eq_true .. |>.mp hentry
  obtain ⟨hlast, hopen⟩ := of_decide_eq_true hcond
  exact absurd (h e he hlast).1 (by simp [hopen])

end Forwarder

end Ns3Ndn
