import Ns3Ndn.Fw.QLearning

/-!
# Bounds of the Q values

Learning moves a Q value a tenth of the way to the reward plus 9/10 of the largest value of a row. With rewards
10 and -5 the values stay between -5 and 100, the fixed points of the two rewards, so every hop beats the
initial `-1e9` of `selectAction`.

* `bestAction_firstMaximal`: the loop returns the first hop with the largest value;
* **`run_bounded`**: in every run the values are bounded and the selection is greedy.
-/

namespace Ns3Ndn.QLearning

open OrdLib

/-! ## The interval -/

/-- Every stored Q value lies between -5 and 100. -/
def Bounded (q : QLearning) : Prop :=
  ∀ state action v, (q.qTable state).find? action = some v → -5 ≤ v ∧ v ≤ 100

variable {q : QLearning}

theorem bounded_empty (tape : ℕ → Choice) : Bounded { tape := tape } := fun _ _ _ h => by cases h

theorem Bounded.value (h : q.Bounded) (state : QLearningState) (action : FaceId) :
    -5 ≤ q.value state action ∧ q.value state action ≤ 100 := by
  unfold QLearning.value
  cases hv : (q.qTable state).find? action with
  | none => norm_num
  | some v => exact h state action v hv

theorem Bounded.update (h : q.Bounded) {state : QLearningState} {row : OrdMap FaceId ℚ}
    (hrow : ∀ action v, row.find? action = some v →
      (q.qTable state).find? action = some v ∨ -5 ≤ v ∧ v ≤ 100) :
    Bounded { q with qTable := Function.update q.qTable state row } := by
  intro state' action v hv
  dsimp only at hv
  by_cases hstate : state' = state
  · subst hstate
    rw [Function.update_self] at hv
    exact (hrow action v hv).elim (h state' action v) id
  · rw [Function.update_of_ne hstate] at hv
    exact h state' action v hv

theorem Bounded.touch (h : q.Bounded) (state : QLearningState) (action : FaceId) :
    (q.touch state action).Bounded := by
  refine h.update fun action' v hv => ?_
  rw [OrdMap.find?_insertNew] at hv
  cases hold : (q.qTable state).find? action' with
  | some w =>
    rw [hold, Option.some_or] at hv
    exact Or.inl hv
  | none =>
    rw [hold, Option.none_or] at hv
    split_ifs at hv
    cases hv
    norm_num

theorem Bounded.foldl_max (h : q.Bounded) (state : QLearningState) :
    0 ≤ ((q.qTable state).toList.map Prod.snd).foldl max 0 ∧
      ((q.qTable state).toList.map Prod.snd).foldl max 0 ≤ 100 := by
  refine List.foldlRecOn (motive := fun m : ℚ => 0 ≤ m ∧ m ≤ 100) _ _ (by norm_num) fun m hm v hv => ?_
  obtain ⟨⟨action, v⟩, hmem, rfl⟩ := List.mem_map.mp hv
  have hbound := h state action v ((q.qTable state).mem_toList.mp hmem)
  exact ⟨le_max_of_le_left hm.1, max_le hm.2 hbound.2⟩

/-- **Learning keeps the interval.** -/
theorem Bounded.updateQValue (h : q.Bounded) {reward : ℚ} (hreward : reward = 10 ∨ reward = -5)
    (state : QLearningState) (action : FaceId) (nextState : QLearningState) :
    (q.updateQValue state action reward nextState).Bounded := by
  have htouch := h.touch state action
  have hold := htouch.value state action
  have hmax := htouch.foldl_max nextState
  refine htouch.update fun action' v hv => ?_
  rw [OrdMap.find?_insert] at hv
  split_ifs at hv with haction
  · refine Or.inr ?_
    rw [← Option.some.inj hv]
    rcases hreward with rfl | rfl <;> constructor <;> linarith
  · exact Or.inl hv

/-! ## Selection -/

theorem Bounded.bestAction (h : q.Bounded) (state : QLearningState) (maxQ : ℚ) (best : FaceId)
    (hops : List FaceId) : (bestAction state q maxQ best hops).2.Bounded := by
  induction hops generalizing q maxQ best with
  | nil => exact h
  | cons faceId hops ih =>
    rw [QLearning.bestAction]
    split_ifs
    · exact ih (h.touch state faceId) _ _
    · exact ih (h.touch state faceId) _ _

theorem Bounded.selectAction (h : q.Bounded) (choice : Choice) (state : QLearningState) (first : FaceId)
    (rest : List FaceId) : (q.selectAction choice state first rest).2.Bounded := by
  unfold QLearning.selectAction
  split_ifs
  · exact h
  · exact h.bestAction state _ first (first :: rest)

def FirstMaximal (f : FaceId → ℚ) (hops : List FaceId) (hop : FaceId) : Prop :=
  ∃ before after, hops = before ++ hop :: after ∧ (∀ x ∈ before, f x < f hop) ∧ ∀ x ∈ after, f x ≤ f hop

theorem bestAction_firstMaximal (state : QLearningState) (q : QLearning) (maxQ : ℚ) (best : FaceId)
    (hops : List FaceId) :
    (bestAction state q maxQ best hops).1 = best ∧ (∀ x ∈ hops, q.value state x ≤ maxQ) ∨
      maxQ < q.value state (bestAction state q maxQ best hops).1 ∧
        FirstMaximal (q.value state) hops (bestAction state q maxQ best hops).1 := by
  induction hops generalizing q maxQ best with
  | nil => exact Or.inl ⟨rfl, fun x hx => absurd hx List.not_mem_nil⟩
  | cons faceId hops ih =>
    have htouch : (q.touch state faceId).value state = q.value state :=
      funext fun action => (q.sameLearned_touch state faceId).value state action
    rw [bestAction, htouch]
    split_ifs with hgt
    · right
      have ih := ih (q.touch state faceId) (q.value state faceId) faceId
      rw [htouch] at ih
      rcases ih with ⟨hbest, hle⟩ | ⟨hlt, before, after, hsplit, hbefore, hafter⟩
      · rw [hbest]
        exact ⟨hgt, [], hops, rfl, by simp, hle⟩
      · refine ⟨hgt.trans hlt, faceId :: before, after, congrArg (faceId :: ·) hsplit, fun x hx => ?_, hafter⟩
        rcases List.mem_cons.mp hx with rfl | hx
        · exact hlt
        · exact hbefore x hx
    · have hle := not_lt.mp hgt
      have ih := ih (q.touch state faceId) maxQ best
      rw [htouch] at ih
      rcases ih with ⟨hbest, hrest⟩ | ⟨hlt, before, after, hsplit, hbefore, hafter⟩
      · refine Or.inl ⟨hbest, fun x hx => ?_⟩
        rcases List.mem_cons.mp hx with rfl | hx
        · exact hle
        · exact hrest x hx
      · refine Or.inr ⟨hlt, faceId :: before, after, congrArg (faceId :: ·) hsplit, fun x hx => ?_, hafter⟩
        rcases List.mem_cons.mp hx with rfl | hx
        · exact hle.trans_lt hlt
        · exact hbefore x hx

/-- **Without exploration the first hop of largest value is selected**, since every value beats the initial
one. -/
theorem Bounded.selectAction_firstMaximal (h : q.Bounded) {choice : Choice} (hexplore : choice.explore = false)
    (state : QLearningState) (first : FaceId) (rest : List FaceId) :
    FirstMaximal (q.value state) (first :: rest) (q.selectAction choice state first rest).1 := by
  unfold QLearning.selectAction
  rw [hexplore, if_neg Bool.false_ne_true]
  rcases bestAction_firstMaximal state q (-1000000000) first (first :: rest) with ⟨-, hle⟩ | ⟨-, hmax⟩
  · have := hle first List.mem_cons_self
    linarith [(h.value state first).1]
  · exact hmax

/-! ## Runs -/

/-- A call of the strategy: `updateQValue` with the reward of Data or of a Nack, or `selectAction`. -/
inductive QCall where
  | update (state : QLearningState) (action : FaceId) (isData : Bool) (nextState : QLearningState)
  | select (choice : Choice) (state : QLearningState) (first : FaceId) (rest : List FaceId)

def call (q : QLearning) : QCall → QLearning
  | .update state action isData nextState => q.updateQValue state action (if isData then 10 else -5) nextState
  | .select choice state first rest => (q.selectAction choice state first rest).2

def runCalls (tape : ℕ → Choice) (calls : List QCall) : QLearning := calls.foldl call { tape := tape }

theorem Bounded.call (h : q.Bounded) (c : QCall) : (q.call c).Bounded := by
  cases c with
  | update state action isData nextState =>
    refine h.updateQValue ?_ state action nextState
    cases isData <;> simp
  | select choice state first rest => exact h.selectAction choice state first rest

/-- **In every run the Q values lie between -5 and 100.** So a selection that does not explore returns the first
hop of largest value, and one that does returns a hop of the list. -/
theorem run_bounded (tape : ℕ → Choice) (calls : List QCall) :
    (runCalls tape calls).Bounded ∧
      ∀ choice state first rest,
        (choice.explore = false → FirstMaximal ((runCalls tape calls).value state) (first :: rest)
          ((runCalls tape calls).selectAction choice state first rest).1) ∧
        (choice.explore = true → ((runCalls tape calls).selectAction choice state first rest).1 ∈ first :: rest) := by
  have hbounded : (runCalls tape calls).Bounded :=
    List.foldlRecOn (motive := Bounded) calls _ (bounded_empty tape) fun q hq c _ => hq.call c
  refine ⟨hbounded, fun choice state first rest => ⟨fun hexplore => ?_, fun _ => ?_⟩⟩
  · exact hbounded.selectAction_firstMaximal hexplore state first rest
  · exact (selectAction_spec _ choice state first rest).1

end Ns3Ndn.QLearning
