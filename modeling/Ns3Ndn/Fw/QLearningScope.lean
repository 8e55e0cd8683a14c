import Ns3Ndn.Fw.QLearning

/-!
# Where the Q-learning strategy forwards

The other strategies of `NFD/daemon/fw` pass over a next hop that is not `isNextHopEligible`: the
ingress face itself, unless it is ad hoc, and faces outside the scope of the Interest. The
Q-learning strategy takes every next hop whose transport is up.

* `Harmless`: all next hops it can send to are eligible, or it sends nothing;
* `run_isEligible`: this is the exact condition on a call, and when it holds throughout a run, only
  eligible faces are used.
-/

namespace Ns3Ndn

def Forwarded.IsEligible (r : Forwarded) : Prop :=
  isNextHopEligible r.inId r.inFace r.interest r.outId r.outFace = true

instance (r : Forwarded) : Decidable r.IsEligible := inferInstanceAs (Decidable (_ = true))

namespace Forwarder

variable {κ δ : Type}

/-- Every face to which `afterReceiveInterest` can send is eligible: the PIT entry is pending
already, or all next hops with a transport that is up, and to which the hop limit lets the Interest
go, are eligible. -/
def Harmless {σ : Type} (s : Forwarder κ δ σ) (interest : Interest) (ingress : FaceId) (inFace : Face)
    (e : PitEntry) : Prop :=
  hasPendingOutRecords s.now e = true ∨
    ∀ outId ∈ s.getAvailableNextHops e, ∀ outFace ∈ s.faces outId,
      ¬ (interest.hopLimit = some 0 ∧ outFace.scope = .nonLocal) →
      isNextHopEligible ingress inFace interest outId outFace = true

instance {σ : Type} (s : Forwarder κ δ σ) (interest : Interest) (ingress : FaceId) (inFace : Face)
    (e : PitEntry) : Decidable (s.Harmless interest ingress inFace e) :=
  inferInstanceAs (Decidable (_ ∨ _))

variable {s : Forwarder κ δ QLearning} {interest : Interest} {ingress : FaceId} {inFace : Face} {id : ℕ}

theorem afterReceiveInterestWith_forwarded (s : Forwarder κ δ QLearning) (choice : Choice)
    (interest : Interest) (ingress : FaceId) (inFace : Face) (id : ℕ) :
    (s.afterReceiveInterestWith choice interest ingress inFace id).strategy.forwarded =
        s.strategy.forwarded ∨
      ∃ e outId outFace, s.pit.find? id = some e ∧ hasPendingOutRecords s.now e = false ∧
        outId ∈ s.getAvailableNextHops e ∧ s.CanSend interest outId outFace ∧
        (s.afterReceiveInterestWith choice interest ingress inFace id).strategy.forwarded =
          s.strategy.forwarded ++ [⟨interest, ingress, inFace, outId, outFace⟩] := by
  unfold afterReceiveInterestWith
  split
  · exact .inl rfl
  case h_2 e he =>
    split_ifs with hpending
    · exact .inl rfl
    · split
      · exact .inl rfl
      case h_2 first rest hhops =>
        obtain ⟨hmem, -, hlog⟩ :=
          s.strategy.selectAction_spec choice (interest.name, ingress) first rest
        dsimp only
        generalize s.strategy.selectAction choice (interest.name, ingress) first rest = r at *
        rcases sendToSelected_forwarded { s with strategy := r.2 } interest ingress inFace id r.1 with
          hsame | ⟨outFace, hcan, hsent⟩
        · exact .inl (hsame.trans hlog)
        · refine .inr ⟨e, r.1, outFace, he, by simpa using hpending, hhops ▸ hmem, hcan, ?_⟩
          rw [hsent]
          exact congrArg (· ++ _) hlog

/-- Any next hop it can send to is reached with some outcome of the random generators. -/
theorem exists_afterReceiveInterestWith (ingress : FaceId) (inFace : Face) {e : PitEntry}
    {outId : FaceId} {outFace : Face} (he : s.pit.find? id = some e) (hpending : hasPendingOutRecords s.now e = false)
    (hout : outId ∈ s.getAvailableNextHops e) (hcan : s.CanSend interest outId outFace) :
    ∃ choice, (s.afterReceiveInterestWith choice interest ingress inFace id).strategy.forwarded =
      s.strategy.forwarded ++ [⟨interest, ingress, inFace, outId, outFace⟩] := by
  cases hhops : s.getAvailableNextHops e with
  | nil =>
    rw [hhops] at hout
    exact absurd hout List.not_mem_nil
  | cons first rest =>
    rw [hhops] at hout
    obtain ⟨choice, hchoice⟩ := s.strategy.exists_selectAction (interest.name, ingress) hout
    refine ⟨choice, ?_⟩
    rw [afterReceiveInterestWith, he]
    dsimp only
    rw [if_neg (by simp [hpending]), hhops]
    dsimp only
    rw [hchoice]
    exact sendToSelected_forwarded_of_canSend _ _ _ _ _ hcan

/-- The records that a call of `afterReceiveInterest` adds are eligible. -/
def SendsEligible (s s' : Forwarder κ δ QLearning) : Prop :=
  ∀ r ∈ s'.strategy.forwarded.drop s.strategy.forwarded.length, r.IsEligible

/-- **The exact condition on a call.** -/
theorem sendsEligible_iff_harmless {e : PitEntry} (he : s.pit.find? id = some e) :
    (∀ choice, SendsEligible s (s.afterReceiveInterestWith choice interest ingress inFace id)) ↔
      s.Harmless interest ingress inFace e := by
  constructor
  · intro h
    by_cases hpending : hasPendingOutRecords s.now e = true
    · exact .inl hpending
    · refine .inr fun outId hout outFace hface hlimit => ?_
      obtain ⟨choice, hsent⟩ := exists_afterReceiveInterestWith ingress inFace he
        (by simpa using hpending) hout ⟨hface, hlimit⟩
      refine h choice ⟨interest, ingress, inFace, outId, outFace⟩ ?_
      rw [hsent, List.drop_left]
      exact List.mem_singleton_self _
  · intro h choice r hr
    rcases afterReceiveInterestWith_forwarded s choice interest ingress inFace id with
      hsame | ⟨e', outId, outFace, he', hpending, hout, hcan, hsent⟩
    · rw [hsame, List.drop_length] at hr
      exact absurd hr List.not_mem_nil
    · rw [hsent, List.drop_left, List.mem_singleton] at hr
      subst hr
      obtain rfl : e = e' := Option.some.inj (he.symm.trans he')
      rcases h with h | h
      · exact absurd h (by simp [hpending])
      · exact h outId hout outFace hcan.1 hcan.2

def StepHarmless (E : Env κ δ) (s : Forwarder κ δ QLearning) : FwEvent → Prop
  | .interest ingress interest => ∀ call ∈ s.strategyCall E ingress interest,
      ∀ e ∈ call.state.pit.find? call.pitEntry,
        call.state.Harmless call.interest ingress call.inFace e
  | _ => True

instance (E : Env κ δ) (s : Forwarder κ δ QLearning) : DecidablePred (StepHarmless E s)
  | .interest ingress interest =>
    inferInstanceAs (Decidable (∀ call ∈ s.strategyCall E ingress interest, _))
  | .data .. | .nack .. | .elapse .. | .expire .. | .addFace .. | .removeFace .. | .setState ..
  | .addNextHop .. | .removeNextHop .. => isTrue trivial

def RunHarmless (E : Env κ δ) : (s : Forwarder κ δ QLearning) → List FwEvent → Prop
  | _, [] => True
  | s, ev :: es => StepHarmless E s ev ∧ RunHarmless E (s.step E qLearningStrategy ev) es

variable (E : Env κ δ)

theorem step_isEligible (s : Forwarder κ δ QLearning) (ev : FwEvent) (hev : StepHarmless E s ev)
    (h : ∀ r ∈ s.strategy.forwarded, r.IsEligible) :
    ∀ r ∈ (s.step E qLearningStrategy ev).strategy.forwarded, r.IsEligible := by
  cases ev with
  | interest ingress interest =>
    rcases s.step_interest_forwarded E ingress interest with
      ⟨-, hsame⟩ | ⟨call, choice, hcall, hstrategy, hstep⟩
    · rwa [hsame]
    · rw [← hstrategy] at h
      rw [hstep]
      rcases afterReceiveInterestWith_forwarded _ choice call.interest ingress call.inFace
          call.pitEntry with
        hsame | ⟨e, outId, outFace, he, hpending, hout, hcan, hsent⟩
      · rw [hsame]
        exact h
      · rw [hsent]
        refine List.forall_mem_append.mpr ⟨h, List.forall_mem_singleton.mpr ?_⟩
        rcases hev call hcall e he with hp | hall
        · exact absurd hp (by simp [show hasPendingOutRecords call.state.now e = false from hpending])
        · exact hall outId hout outFace hcan.1 hcan.2
  | data ingress endpoint data => rwa [step_data_strategy]
  | nack ingress nack =>
    rw [step_nack_strategy]
    split <;> exact h
  | _ => rwa [step_other_strategy E _ s _ rfl]

/-- **Only eligible faces.** In every run in which each event is harmless, the strategy sends to
eligible faces only; and a call of the strategy sends to eligible faces with every outcome of the
random generators exactly if it is harmless. -/
theorem run_isEligible (s₀ : Forwarder κ δ QLearning) (es : List FwEvent)
    (h₀ : ∀ r ∈ s₀.strategy.forwarded, r.IsEligible) (hes : RunHarmless E s₀ es) :
    (∀ r ∈ (s₀.run E qLearningStrategy es).strategy.forwarded, r.IsEligible) ∧
      ∀ (s : Forwarder κ δ QLearning) (interest : Interest) (ingress : FaceId) (inFace : Face)
        (id : ℕ) (e : PitEntry), s.pit.find? id = some e →
        ((∀ choice, SendsEligible s
            (s.afterReceiveInterestWith choice interest ingress inFace id)) ↔
          s.Harmless interest ingress inFace e) := by
  refine ⟨?_, fun s interest ingress inFace id e he => sendsEligible_iff_harmless he⟩
  induction es generalizing s₀ with
  | nil => exact h₀
  | cons ev es ih =>
    obtain ⟨hev, hes⟩ := hes
    exact ih (s₀.step E qLearningStrategy ev) (step_isEligible E s₀ ev hev h₀) hes

end Forwarder

/-! ## An echo and a leak -/

def bareEnv : Env Unit (List (Name × UInt32)) where
  csFind := fun cs _ => (none, cs)
  csInsert := fun cs _ _ => cs
  dnlHas := fun dnl name nonce => (name, nonce) ∈ dnl
  dnlAdd := fun dnl name nonce => (name, nonce) :: dnl
  dnlLifetime := 6000
  decideUnsolicited := fun _ _ => false

/-- A forwarder that has just started, with a strategy that never explores. -/
def bareForwarder : Forwarder Unit (List (Name × UInt32)) QLearning where
  cs := ()
  deadNonceList := []
  strategy := { tape := fun _ => ⟨false, 0⟩ }

def linkFace : Face := ⟨.nonLocal, .pointToPoint, .up⟩

def bareInterest (name : Name) (nonce : UInt32) : Interest := { name, nonce }

/-- `ndn:/a`. -/
def nameA : Name := [.generic [97]]

/-- A default route to the face an Interest comes from sends the Interest back, and an Interest
under `/localhop` from another host is sent on to a third one. -/
theorem not_isEligible_echo :
    (¬ ∀ r ∈ (bareForwarder.run bareEnv Forwarder.qLearningStrategy
        [.addFace linkFace, .addNextHop [] 256 1,
          .interest 256 (bareInterest nameA 1)]).strategy.forwarded, r.IsEligible) ∧
      ¬ ∀ r ∈ (bareForwarder.run bareEnv Forwarder.qLearningStrategy
        [.addFace linkFace, .addFace linkFace, .addNextHop [] 257 1,
          .interest 256 (bareInterest LOCALHOP 1)]).strategy.forwarded, r.IsEligible := by
  decide

/-- With the default route to a second face the Interest is sent there, which is harmless. -/
theorem run_isEligible_default_route :
    Forwarder.RunHarmless bareEnv bareForwarder [.addFace linkFace, .addFace linkFace,
        .addNextHop [] 257 1, .interest 256 (bareInterest nameA 1)] ∧
      ∀ r ∈ (bareForwarder.run bareEnv Forwarder.qLearningStrategy
        [.addFace linkFace, .addFace linkFace, .addNextHop [] 257 1,
          .interest 256 (bareInterest nameA 1)]).strategy.forwarded, r.IsEligible := by
  have hrun : Forwarder.RunHarmless bareEnv bareForwarder [.addFace linkFace, .addFace linkFace,
      .addNextHop [] 257 1, .interest 256 (bareInterest nameA 1)] :=
    ⟨trivial, trivial, trivial, by decide, trivial⟩
  exact ⟨hrun, (Forwarder.run_isEligible bareEnv bareForwarder _ (by simp [bareForwarder]) hrun).1⟩

end Ns3Ndn
