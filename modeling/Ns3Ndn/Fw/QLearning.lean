import Ns3Ndn.Fw.Forwarder

/-!
# The Q-learning strategy

`NFD/daemon/fw/q-learning-strategy.cpp`. Q values are exact rationals. The random numbers of a run
are a tape of choices: whether to explore, and which hop to take then.

Two components are not in the code: `updates` records the calls of `updateQValue`, and `forwarded`
the Interests that the strategy sent, with both faces as they were then.

* `mem_of_selectAction`: the action is one of the available hops, and with the right choice any.
-/

namespace Ns3Ndn

open OrdLib

abbrev QLearningState := Name × FaceId

/-- One outcome of the random generators. `pick` counts the available hops cyclically. -/
structure Choice where
  explore : Bool
  pick : ℕ

structure QUpdate where
  state : QLearningState
  action : FaceId
  reward : ℚ
deriving DecidableEq

/-- An Interest that the strategy sent, with the face it came from and the face it went to. -/
structure Forwarded where
  interest : Interest
  inId : FaceId
  inFace : Face
  outId : FaceId
  outFace : Face
deriving DecidableEq

/-- The state of the strategy. A row that was never touched is empty. -/
structure QLearning where
  qTable : QLearningState → OrdMap FaceId ℚ := fun _ => OrdMap.empty
  tape : ℕ → Choice
  nDrawn : ℕ := 0
  updates : List QUpdate := []
  forwarded : List Forwarded := []

namespace QLearning

def touch (q : QLearning) (state : QLearningState) (action : FaceId) : QLearning :=
  { q with qTable := Function.update q.qTable state ((q.qTable state).insertNew action 0) }

def value (q : QLearning) (state : QLearningState) (action : FaceId) : ℚ :=
  ((q.qTable state).find? action).getD 0

def updateQValue (q : QLearning) (state : QLearningState) (action : FaceId) (reward : ℚ)
    (nextState : QLearningState) : QLearning :=
  let q := q.touch state action
  let oldQ := q.value state action
  let maxNextQ := ((q.qTable nextState).toList.map Prod.snd).foldl max 0
  let newQ := oldQ + 1 / 10 * (reward + 9 / 10 * maxNextQ - oldQ)
  { q with
    qTable := Function.update q.qTable state ((q.qTable state).insert action newQ)
    updates := q.updates ++ [⟨state, action, reward⟩] }

/-- The loop of `selectAction` that looks for the largest Q value. -/
def bestAction (state : QLearningState) :
    QLearning → (maxQ : ℚ) → (best : FaceId) → (hops : List FaceId) → FaceId × QLearning
  | q, _, best, [] => (best, q)
  | q, maxQ, best, faceId :: hops =>
    let q := q.touch state faceId
    if q.value state faceId > maxQ then bestAction state q (q.value state faceId) faceId hops
    else bestAction state q maxQ best hops

/-- `selectAction` on the hops `first :: rest`, with the outcome of the random generators. -/
def selectAction (q : QLearning) (choice : Choice) (state : QLearningState) (first : FaceId)
    (rest : List FaceId) : FaceId × QLearning :=
  if choice.explore then
    ((first :: rest).getD (choice.pick % (rest.length + 1)) first, q)
  else bestAction state q (-1000000000) first (first :: rest)

structure SameLearned (q q' : QLearning) : Prop where
  updates : q'.updates = q.updates
  value : ∀ state action, q'.value state action = q.value state action

theorem SameLearned.rfl' (q : QLearning) : SameLearned q q := ⟨rfl, fun _ _ => rfl⟩

theorem SameLearned.trans {q q' q'' : QLearning} (h : SameLearned q q') (h' : SameLearned q' q'') :
    SameLearned q q'' :=
  ⟨h'.updates.trans h.updates, fun state action => (h'.value state action).trans (h.value state action)⟩

theorem sameLearned_touch (q : QLearning) (state : QLearningState) (action : FaceId) :
    SameLearned q (q.touch state action) := by
  refine ⟨rfl, fun state' action' => ?_⟩
  unfold value touch
  dsimp only
  by_cases hstate : state' = state
  · subst hstate
    rw [Function.update_self, OrdMap.find?_insertNew]
    by_cases haction : action = action'
    · subst haction
      cases (q.qTable state').find? action <;> simp
    · simp [haction]
  · rw [Function.update_of_ne hstate]

theorem bestAction_spec (state : QLearningState) (q : QLearning) (maxQ : ℚ) (best : FaceId)
    (hops : List FaceId) : (bestAction state q maxQ best hops).1 ∈ best :: hops ∧
      SameLearned q (bestAction state q maxQ best hops).2 ∧
      (bestAction state q maxQ best hops).2.forwarded = q.forwarded := by
  induction hops generalizing q maxQ best with
  | nil => exact ⟨List.mem_cons_self, .rfl' q, rfl⟩
  | cons faceId hops ih =>
    have htouch := q.sameLearned_touch state faceId
    rw [bestAction]
    split_ifs
    · obtain ⟨hmem, hsame, hlog⟩ :=
        ih (q.touch state faceId) ((q.touch state faceId).value state faceId) faceId
      exact ⟨List.mem_cons_of_mem _ hmem, htouch.trans hsame, hlog⟩
    · obtain ⟨hmem, hsame, hlog⟩ := ih (q.touch state faceId) maxQ best
      refine ⟨?_, htouch.trans hsame, hlog⟩
      rcases List.mem_cons.mp hmem with h | h
      · rw [h]
        exact List.mem_cons_self
      · exact List.mem_cons_of_mem _ (List.mem_cons_of_mem _ h)

/-- **The action is an available hop**, and selecting it is no update. -/
theorem selectAction_spec (q : QLearning) (choice : Choice) (state : QLearningState) (first : FaceId)
    (rest : List FaceId) : (q.selectAction choice state first rest).1 ∈ first :: rest ∧
      SameLearned q (q.selectAction choice state first rest).2 ∧
      (q.selectAction choice state first rest).2.forwarded = q.forwarded := by
  unfold selectAction
  split_ifs
  · have hlt : choice.pick % (rest.length + 1) < (first :: rest).length :=
      Nat.mod_lt _ (Nat.succ_pos _)
    refine ⟨?_, .rfl' q, rfl⟩
    rw [List.getD_eq_getElem _ _ hlt]
    exact List.getElem_mem hlt
  · obtain ⟨hmem, hlogs⟩ := bestAction_spec state q (-1000000000) first (first :: rest)
    refine ⟨?_, hlogs⟩
    rcases List.mem_cons.mp hmem with h | h
    · rw [h]
      exact List.mem_cons_self
    · exact h

/-- Exploration can select any available hop. -/
theorem exists_selectAction (q : QLearning) (state : QLearningState) {first : FaceId}
    {rest : List FaceId} {id : FaceId} (h : id ∈ first :: rest) :
    ∃ choice, q.selectAction choice state first rest = (id, q) := by
  obtain ⟨i, hi, rfl⟩ := List.getElem_of_mem h
  refine ⟨⟨true, i⟩, ?_⟩
  have hmod : i % (rest.length + 1) = i := Nat.mod_eq_of_lt hi
  rw [selectAction, if_pos rfl]
  dsimp only
  rw [hmod, List.getD_eq_getElem _ _ hi]

end QLearning

namespace Forwarder

variable {κ δ : Type}

def getAvailableNextHops {σ : Type} (s : Forwarder κ δ σ) (e : PitEntry) : List FaceId :=
  ((lookupFib s.fib e).map NextHop.face).filter fun id =>
    (s.faces id).any fun face => face.state == .up

variable (s : Forwarder κ δ QLearning)

def sendToSelected (selected : FaceId) (interest : Interest) (ingress : FaceId) (inFace : Face)
    (id : ℕ) : Forwarder κ δ QLearning :=
  match s.faces selected with
  | none => s.rejectPendingInterest id
  | some outFace =>
    match s.sendInterest interest selected outFace id with
    | (s, false) => s
    | (s, true) =>
      { s with
        strategy :=
          { s.strategy with
            forwarded := s.strategy.forwarded ++ [⟨interest, ingress, inFace, selected, outFace⟩] } }

def afterReceiveInterestWith (choice : Choice) (interest : Interest) (ingress : FaceId)
    (inFace : Face) (id : ℕ) : Forwarder κ δ QLearning :=
  match s.pit.find? id with
  | none => s
  | some e =>
    if hasPendingOutRecords s.now e then s
    else
      match s.getAvailableNextHops e with
      | [] => s.rejectPendingInterest id
      | first :: rest =>
        let (selected, q) := s.strategy.selectAction choice (interest.name, ingress) first rest
        { s with strategy := q }.sendToSelected selected interest ingress inFace id

/-- Go on to the next outcome of the random generators. -/
def advanceTape : Forwarder κ δ QLearning :=
  { s with strategy := { s.strategy with nDrawn := s.strategy.nDrawn + 1 } }

/-- `QLearningStrategy::afterReceiveInterest`. A call that selects nothing leaves its outcome of the
random generators unused. -/
def afterReceiveInterest (interest : Interest) (ingress : FaceId) (inFace : Face) (id : ℕ) :
    Forwarder κ δ QLearning :=
  s.advanceTape.afterReceiveInterestWith (s.strategy.tape s.strategy.nDrawn) interest ingress inFace id

/-- `Strategy::sendDataToAll`. -/
def sendDataToAll {σ : Type} (s : Forwarder κ δ σ) (data : Data) (ingress : FaceId) (id : ℕ) :
    Forwarder κ δ σ :=
  match s.pit.find? id with
  | none => s
  | some e =>
    let isAdHoc (face : FaceId) : Bool := (s.faces face).any fun f => f.linkType == .adHoc
    let pending := (e.inRecords.filter fun r =>
      s.now < r.expiry && ! (r.face == ingress && ! isAdHoc r.face)).map InRecord.face
    let s := pending.foldl (fun s face => s.sendData data face id) s
    (s.modifyEntry id fun e => { e with inRecords := [], isSatisfied := true }).setExpiryTimer id 0

/-- `QLearningStrategy::afterReceiveData`. -/
def afterReceiveData (data : Data) (ingress : FaceId) (id : ℕ) : Forwarder κ δ QLearning :=
  let state := (data.name, ingress)
  let q := s.strategy.updateQValue state ingress 10 state
  { s with strategy := q }.sendDataToAll data ingress id

/-- `QLearningStrategy::afterReceiveNack`. -/
def afterReceiveNack (nack : Nack) (ingress : FaceId) : Forwarder κ δ QLearning :=
  let state := (nack.interest.name, ingress)
  { s with strategy := s.strategy.updateQValue state ingress (-5) state }

/-- `QLearningStrategy`. -/
def qLearningStrategy : Strategy κ δ QLearning where
  afterReceiveInterest := afterReceiveInterest
  afterReceiveData := afterReceiveData
  afterReceiveNack := fun s nack ingress _ => s.afterReceiveNack nack ingress

/-! ## What the strategy does -/

/-- An Interest that may be sent to `outId`: the face exists and the hop limit allows it. -/
def CanSend {σ : Type} (s : Forwarder κ δ σ) (interest : Interest) (outId : FaceId) (outFace : Face) :
    Prop :=
  s.faces outId = some outFace ∧ ¬ (interest.hopLimit = some 0 ∧ outFace.scope = .nonLocal)

variable (interest : Interest) (ingress : FaceId) (inFace : Face) (id : ℕ)

theorem sendToSelected_sameLearned (selected : FaceId) :
    s.strategy.SameLearned (s.sendToSelected selected interest ingress inFace id).strategy := by
  unfold sendToSelected
  split
  · exact .rfl' _
  case h_2 outFace hface =>
    have hframe := s.onOutgoingInterest_strategy { interest with pitToken := none } selected outFace id
    dsimp only [sendInterest]
    split
    case h_1 s' hsend =>
      rw [hsend] at hframe
      exact hframe ▸ .rfl' _
    case h_2 s' hsend =>
      rw [hsend] at hframe
      rw [← hframe]
      exact ⟨rfl, fun _ _ => rfl⟩

theorem sendToSelected_forwarded_of_canSend {selected : FaceId} {outFace : Face}
    (h : s.CanSend interest selected outFace) :
    (s.sendToSelected selected interest ingress inFace id).strategy.forwarded =
      s.strategy.forwarded ++ [⟨interest, ingress, inFace, selected, outFace⟩] := by
  unfold sendToSelected
  rw [h.1]
  dsimp only [sendInterest, onOutgoingInterest]
  rw [if_neg h.2]
  rfl

theorem sendToSelected_forwarded (selected : FaceId) :
    (s.sendToSelected selected interest ingress inFace id).strategy.forwarded =
        s.strategy.forwarded ∨
      ∃ outFace, s.CanSend interest selected outFace ∧
        (s.sendToSelected selected interest ingress inFace id).strategy.forwarded =
          s.strategy.forwarded ++ [⟨interest, ingress, inFace, selected, outFace⟩] := by
  cases hface : s.faces selected with
  | none =>
    refine .inl ?_
    rw [sendToSelected, hface]
    rfl
  | some outFace =>
    by_cases hlimit : interest.hopLimit = some 0 ∧ outFace.scope = .nonLocal
    · refine .inl ?_
      rw [sendToSelected, hface]
      dsimp only [sendInterest, onOutgoingInterest]
      rw [if_pos hlimit]
    · exact .inr ⟨outFace, ⟨hface, hlimit⟩, sendToSelected_forwarded_of_canSend _ _ _ _ _ ⟨hface, hlimit⟩⟩

theorem afterReceiveInterestWith_sameLearned (choice : Choice) :
    s.strategy.SameLearned
      (s.afterReceiveInterestWith choice interest ingress inFace id).strategy := by
  unfold afterReceiveInterestWith
  split
  · exact .rfl' _
  · split_ifs
    · exact .rfl' _
    · split
      · exact .rfl' _
      case h_2 first rest _ =>
        obtain ⟨-, hsame, -⟩ :=
          s.strategy.selectAction_spec choice (interest.name, ingress) first rest
        generalize s.strategy.selectAction choice (interest.name, ingress) first rest = r at *
        exact hsame.trans
          (sendToSelected_sameLearned { s with strategy := r.2 } interest ingress inFace id r.1)

/-! ## What an event does to the strategy -/

variable (E : Env κ δ)

theorem step_data_strategy (ingress : FaceId) (endpoint : ℕ) (data : Data) :
    (s.step E qLearningStrategy (.data ingress endpoint data)).strategy = s.strategy := by
  rw [step]
  split
  · rfl
  · exact onIncomingData_strategy s (fun _ _ _ _ => rfl) data ingress _ endpoint

def accepted {σ : Type} (s : Forwarder κ δ σ) (ingress : FaceId) (nack : Nack) : Option ℕ :=
  (s.faces ingress).bind fun face => s.acceptsNack nack ingress face

theorem step_nack_strategy (ingress : FaceId) (nack : Nack) :
    (s.step E qLearningStrategy (.nack ingress nack)).strategy =
      match s.accepted ingress nack with
      | none => s.strategy
      | some _ => s.strategy.updateQValue (nack.interest.name, ingress) ingress (-5)
          (nack.interest.name, ingress) := by
  rw [step, accepted]
  cases hface : s.faces ingress with
  | none => rfl
  | some face =>
    dsimp only [Option.bind_some]
    rw [onIncomingNack]
    cases haccept : s.acceptsNack nack ingress face with
    | none => rfl
    | some id =>
      dsimp only [qLearningStrategy, afterReceiveNack]
      split
      · rfl
      · split_ifs <;> rfl

/-- What an Interest does to the strategy: nothing, or a call of `afterReceiveInterest`. -/
theorem step_interest_forwarded (ingress : FaceId) (interest : Interest) :
    (s.strategyCall E ingress interest = none ∧
        (s.step E qLearningStrategy (.interest ingress interest)).strategy = s.strategy) ∨
      ∃ call choice, s.strategyCall E ingress interest = some call ∧
        call.state.strategy = s.strategy ∧
        s.step E qLearningStrategy (.interest ingress interest) =
          call.state.advanceTape.afterReceiveInterestWith choice call.interest ingress call.inFace
            call.pitEntry := by
  rcases step_interest_strategy E qLearningStrategy (fun _ _ _ _ => rfl) s ingress interest with
    hnone | ⟨call, hcall, hstrategy, hstep⟩
  · exact .inl hnone
  · exact .inr ⟨call, _, hcall, hstrategy, hstep⟩

end Forwarder

end Ns3Ndn
