import Ns3Ndn.Fw.QLearningScope

/-!
# What the Q-learning strategy learns

`selectAction` reads the cell `m_qTable[(n, i)][f]` for an Interest `n` from face `i` and a candidate
`f`. Data that comes back on `f` never reaches the strategy: `onIncomingData` calls
`satisfyInterest`, and `afterReceiveData` is called from nowhere. An accepted Nack does reach it,
but updates the cell `m_qTable[(n, f)][f]`.

* `run_updatedOnce_iff`: feedback reaches the cell that is read exactly if it is a Nack on the face
  the Interest came from, and all other cells that are ever read keep the value zero.
-/

namespace Ns3Ndn

open OrdLib

namespace QLearning

def init (tape : ℕ → Choice) : QLearning := { tape }

/-- All that the strategy has learned so far comes from Nacks and is about forwarding back. -/
structure OnlyEchoes (q : QLearning) : Prop where
  updates : ∀ u ∈ q.updates, u.reward = -5 ∧ u.state.2 = u.action
  value : ∀ (n : Name) (i f : FaceId), i ≠ f → q.value (n, i) f = 0

theorem onlyEchoes_init (tape : ℕ → Choice) : OnlyEchoes (init tape) where
  updates := fun _ h => absurd h List.not_mem_nil
  value := fun _ _ _ _ => rfl

theorem OnlyEchoes.congr {q q' : QLearning} (h : OnlyEchoes q) (hsame : SameLearned q q') :
    OnlyEchoes q' where
  updates := hsame.updates ▸ h.updates
  value := fun n i f hif => (hsame.value (n, i) f).trans (h.value n i f hif)

theorem updateQValue_updates (q : QLearning) (state : QLearningState) (action : FaceId) (reward : ℚ)
    (nextState : QLearningState) : (q.updateQValue state action reward nextState).updates =
      q.updates ++ [⟨state, action, reward⟩] := rfl

theorem updateQValue_value_of_ne (q : QLearning) {state state' : QLearningState}
    {action action' : FaceId} (reward : ℚ) (nextState : QLearningState)
    (h : ¬ (state' = state ∧ action' = action)) :
    (q.updateQValue state action reward nextState).value state' action' = q.value state' action' := by
  rw [← (q.sameLearned_touch state action).value state' action']
  unfold updateQValue value
  dsimp only
  by_cases hstate : state' = state
  · subst hstate
    have haction : action ≠ action' := fun ha => h ⟨rfl, ha.symm⟩
    rw [Function.update_self, OrdMap.find?_insert_of_ne _ haction]
  · rw [Function.update_of_ne hstate]

theorem OnlyEchoes.updateQValue {q : QLearning} (h : OnlyEchoes q) (n : Name) (f : FaceId) :
    OnlyEchoes (q.updateQValue (n, f) f (-5) (n, f)) where
  updates := List.forall_mem_append.mpr ⟨h.updates, List.forall_mem_singleton.mpr ⟨rfl, rfl⟩⟩
  value := fun n' i f' hif => by
    rw [updateQValue_value_of_ne, h.value n' i f' hif]
    rintro ⟨hstate, rfl⟩
    exact hif (Prod.mk.inj hstate).2

end QLearning

namespace Forwarder

variable {κ δ : Type} (E : Env κ δ)

theorem step_sameLearned (s : Forwarder κ δ QLearning) (ev : FwEvent) (h : ∀ ingress nack, ev ≠ .nack ingress nack) :
    s.strategy.SameLearned (s.step E qLearningStrategy ev).strategy := by
  cases hpacket : ev.isPacket with
  | false =>
    rw [step_other_strategy E _ s ev hpacket]
    exact .rfl' _
  | true =>
    cases ev with
    | interest ingress interest =>
      rcases s.step_interest_forwarded E ingress interest with ⟨-, hsame⟩ | ⟨call, choice, -, hstrategy, hstep⟩
      · rw [hsame]
        exact .rfl' _
      · rw [hstep, ← hstrategy]
        have hcall := call.state.advanceTape.afterReceiveInterestWith_sameLearned call.interest ingress
          call.inFace call.pitEntry choice
        exact ⟨hcall.updates, hcall.value⟩
    | data ingress endpoint data =>
      rw [step_data_strategy]
      exact .rfl' _
    | nack ingress nack => exact absurd rfl (h ingress nack)
    | _ => cases hpacket

/-- **What an event does to the strategy**, as far as learning goes: an accepted Nack is an update,
and nothing else is. -/
theorem step_learned (s : Forwarder κ δ QLearning) (ev : FwEvent) :
    s.strategy.SameLearned (s.step E qLearningStrategy ev).strategy ∧
        (∀ ingress nack, ev = .nack ingress nack → s.accepted ingress nack = none) ∨
      ∃ ingress nack id, ev = .nack ingress nack ∧ s.accepted ingress nack = some id ∧
        (s.step E qLearningStrategy ev).strategy = s.strategy.updateQValue
          (nack.interest.name, ingress) ingress (-5) (nack.interest.name, ingress) := by
  by_cases hnack : ∃ ingress nack, ev = .nack ingress nack
  · obtain ⟨ingress, nack, rfl⟩ := hnack
    rw [step_nack_strategy]
    cases haccepted : s.accepted ingress nack with
    | none =>
      refine .inl ⟨.rfl' _, ?_⟩
      rintro _ _ ⟨⟩
      exact haccepted
    | some id => exact .inr ⟨ingress, nack, id, rfl, haccepted, rfl⟩
  · have hother : ∀ ingress nack, ev ≠ .nack ingress nack := fun ingress nack h => hnack ⟨ingress, nack, h⟩
    exact .inl ⟨s.step_sameLearned E ev hother, fun ingress nack h => absurd h (hother ingress nack)⟩

theorem step_onlyEchoes (s : Forwarder κ δ QLearning) (ev : FwEvent) (h : s.strategy.OnlyEchoes) :
    (s.step E qLearningStrategy ev).strategy.OnlyEchoes := by
  rcases step_learned E s ev with ⟨hsame, -⟩ | ⟨ingress, nack, id, -, -, hupdate⟩
  · exact h.congr hsame
  · rw [hupdate]
    exact h.updateQValue nack.interest.name ingress

/-- An event that answers an Interest named `n` sent to face `f`, and its reward: Data for a PIT entry
of that name, or a Nack that is accepted. -/
inductive Feedback (s : Forwarder κ δ QLearning) (n : Name) (f : FaceId) : FwEvent → ℚ → Prop
  | data {endpoint : ℕ} {data : Data} {face : Face} {id : ℕ} {e : PitEntry}
    (hface : s.faces f = some face)
    (hscope : ¬ (face.scope = .nonLocal ∧ LOCALHOST.isPrefixOf data.name))
    (hmatch : id ∈ s.pit.findAllDataMatches s.pitOrder data) (hentry : s.pit.find? id = some e)
    (hname : e.interest.name = n) : Feedback s n f (.data f endpoint data) 10
  | nack {nack : Nack} {id : ℕ} (haccepted : s.accepted f nack = some id)
    (hname : nack.interest.name = n) : Feedback s n f (.nack f nack) (-5)

/-- Between `s` and `s'` the cell `m_qTable[(n, i)][f]` is updated once, with `reward`. -/
def UpdatedOnce (s s' : Forwarder κ δ QLearning) (n : Name) (i f : FaceId) (reward : ℚ) : Prop :=
  (s'.strategy.updates.drop s.strategy.updates.length).filter
    (fun u => u.state = (n, i) ∧ u.action = f) = [⟨(n, i), f, reward⟩]

/-- **Feedback and the cell that is read.** After any run of a forwarder that has just started, an
answer on face `f` to an Interest `n` from face `i` updates the cell that a later `selectAction` for
`(n, i)` reads exactly if the answer is a Nack and `f` is `i` itself. No update ever has a positive
reward, and the cells for which `f` is not `i` still have the value zero. -/
theorem run_updatedOnce_iff (s₀ : Forwarder κ δ QLearning) (tape : ℕ → Choice)
    (h₀ : s₀.strategy = .init tape) (es : List FwEvent) (n : Name) (i f : FaceId) :
    (∀ ev reward, Feedback (s₀.run E qLearningStrategy es) n f ev reward →
      (UpdatedOnce (s₀.run E qLearningStrategy es)
          ((s₀.run E qLearningStrategy es).step E qLearningStrategy ev) n i f reward ↔
        (∃ nack, ev = .nack f nack) ∧ f = i)) ∧
    (s₀.run E qLearningStrategy es).strategy.OnlyEchoes := by
  constructor
  · intro ev reward hfeedback
    cases hfeedback with
    | data hface hscope hmatch hentry hname =>
      rw [UpdatedOnce, step_data_strategy, List.drop_length]
      simp
    | nack haccepted hname =>
      rw [UpdatedOnce, step_nack_strategy, haccepted]
      dsimp only
      rw [QLearning.updateQValue_updates, List.drop_left, hname]
      by_cases hfi : f = i
      · simp [hfi]
      · simp [hfi]
  · induction es using List.reverseRecOn with
    | nil => exact h₀ ▸ QLearning.onlyEchoes_init tape
    | append_singleton es ev ih =>
      rw [run_concat]
      exact step_onlyEchoes E _ ev ih

end Forwarder

def fetchA : List FwEvent :=
  [.addFace linkFace, .addFace linkFace, .addNextHop [] 257 1, .interest 256 (bareInterest nameA 1)]

/-- After the Interest was forwarded to 257, the Data that answers it is delivered to 256 but updates
no cell; a Nack instead updates another cell than the one that is read. -/
theorem not_updated_fetchA :
    ((bareForwarder.run bareEnv Forwarder.qLearningStrategy fetchA).strategy.forwarded.map
        fun r => (r.interest.name, r.inId, r.outId)) = [(nameA, 256, 257)] ∧
      (bareForwarder.run bareEnv Forwarder.qLearningStrategy
        (fetchA ++ [.data 257 0 { name := nameA }])).sent.getLast? =
          some (.data 256 { name := nameA }) ∧
      (bareForwarder.run bareEnv Forwarder.qLearningStrategy
        (fetchA ++ [.data 257 0 { name := nameA }])).strategy.updates = [] ∧
      (bareForwarder.run bareEnv Forwarder.qLearningStrategy
        (fetchA ++ [.nack 257 ⟨bareInterest nameA 1, .noRoute⟩])).strategy.updates =
          [⟨(nameA, 257), 257, -5⟩] := by
  decide

/-- An Interest that was sent back to where it came from: here a Nack reaches the cell. -/
theorem run_updatedOnce_echo :
    Forwarder.Feedback (bareForwarder.run bareEnv Forwarder.qLearningStrategy
        [.addFace linkFace, .addNextHop [] 256 1, .interest 256 (bareInterest nameA 1)]) nameA 256
        (.nack 256 ⟨bareInterest nameA 1, .noRoute⟩) (-5) ∧
      Forwarder.UpdatedOnce (bareForwarder.run bareEnv Forwarder.qLearningStrategy
          [.addFace linkFace, .addNextHop [] 256 1, .interest 256 (bareInterest nameA 1)])
        ((bareForwarder.run bareEnv Forwarder.qLearningStrategy
          [.addFace linkFace, .addNextHop [] 256 1, .interest 256 (bareInterest nameA 1)]).step bareEnv
            Forwarder.qLearningStrategy (.nack 256 ⟨bareInterest nameA 1, .noRoute⟩)) nameA 256 256
        (-5) := by
  have hfeedback : Forwarder.Feedback (bareForwarder.run bareEnv Forwarder.qLearningStrategy
      [.addFace linkFace, .addNextHop [] 256 1, .interest 256 (bareInterest nameA 1)]) nameA 256
      (.nack 256 ⟨bareInterest nameA 1, .noRoute⟩) (-5) :=
    .nack (show _ = some 0 by decide) rfl
  refine ⟨hfeedback, ?_⟩
  exact ((Forwarder.run_updatedOnce_iff bareEnv bareForwarder _ rfl _ nameA 256 256).1 _ _
    hfeedback).mpr ⟨⟨_, rfl⟩, rfl⟩

end Ns3Ndn
