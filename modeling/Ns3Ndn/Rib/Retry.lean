import Ns3Ndn.Rib.FibManager
import Ns3Ndn.Rib.Records

/-!
# FIB commands that time out

`FibUpdater`, from the computed updates to the callback: `sendAddNextHopUpdate`, `sendRemoveNextHopUpdate`,
`onUpdateSuccess` and `onUpdateError`, with the controller and the FIB manager. A command that was sent may reach
the manager at any time and any number of times, and may have no answer; one that times out is sent again, as an
addition whatever it was before.

* **`run_preserved_iff`**: a run has the property exactly when no removal times out.
-/

namespace Ns3Ndn

open RunLib

/-! ## Commands -/

inductive FibCommand where
  | addNextHop (name : Name) (faceId : FaceId) (cost : ℕ)
  | removeNextHop (name : Name) (faceId : FaceId)
deriving DecidableEq

def FibUpdate.command (u : FibUpdate) : FibCommand :=
  match u.action with
  | .addNextHop => .addNextHop u.name u.faceId u.cost
  | .removeNextHop => .removeNextHop u.name u.faceId

/-- A command without an answer, with what its callbacks hold. -/
structure PendingCommand where
  command : FibCommand
  update : FibUpdate
  nTimeouts : ℕ
deriving DecidableEq

def FibCommand.execute (S : NextHopSort) (faceTable : List FaceId) (t : Tables) : FibCommand → Tables × ℕ
  | .addNextHop name faceId cost => FibManager.addNextHop S faceTable t name faceId cost
  | .removeNextHop name faceId => FibManager.removeNextHop faceTable t name faceId

/-! ## The updater -/

def maxNumTimeouts : ℕ := 10

/-- `Controller::ERROR_TIMEOUT` and `Controller::ERROR_LBOUND`. -/
def errorTimeout : ℕ := 10060

def errorLbound : ℕ := 400

def errorFaceNotFound : ℕ := 410

/-- The updater while a batch is in progress, with the FIB. `sent` has every command that was given to the
controller, with the update it was sent for, and `callbacks` the calls of `onSuccess` and `onFailure`. -/
structure UpdaterSystem where
  updater : FibUpdater
  fib : Tables
  inFlight : List PendingCommand := []
  sent : List (FibUpdate × FibCommand) := []
  callbacks : List Bool := []

namespace UpdaterSystem

section Updater

variable (s : UpdaterSystem)

def start (command : FibCommand) (update : FibUpdate) (nTimeouts : ℕ) : UpdaterSystem :=
  { s with
    inFlight := s.inFlight ++ [⟨command, update, nTimeouts⟩]
    sent := s.sent ++ [(update, command)] }

def sendAddNextHopUpdate (update : FibUpdate) (nTimeouts : ℕ) : UpdaterSystem :=
  s.start (.addNextHop update.name update.faceId update.cost) update nTimeouts

def sendRemoveNextHopUpdate (update : FibUpdate) (nTimeouts : ℕ) : UpdaterSystem :=
  s.start (.removeNextHop update.name update.faceId) update nTimeouts

/-- A turn of the loop of `sendUpdates`. -/
def sendUpdate (update : FibUpdate) : UpdaterSystem :=
  match update.action with
  | .addNextHop => s.sendAddNextHopUpdate update 0
  | .removeNextHop => s.sendRemoveNextHopUpdate update 0

def sendUpdates (updates : List FibUpdate) : UpdaterSystem := updates.foldl sendUpdate s

def onSuccess : UpdaterSystem := { s with callbacks := s.callbacks ++ [true] }

def onFailure : UpdaterSystem := { s with callbacks := s.callbacks ++ [false] }

def sendUpdatesForNonBatchFaceId : UpdaterSystem :=
  if s.updater.updatesForNonBatchFaceId.length > 0 then s.sendUpdates s.updater.updatesForNonBatchFaceId
  else s.onSuccess

def sendUpdatesForBatchFaceId : UpdaterSystem :=
  if s.updater.updatesForBatchFaceId.length > 0 then s.sendUpdates s.updater.updatesForBatchFaceId
  else s.sendUpdatesForNonBatchFaceId

def removeBatch (update : FibUpdate) : UpdaterSystem :=
  { s with updater := { s.updater with
      updatesForBatchFaceId := s.updater.updatesForBatchFaceId.filter (· ≠ update) } }

def removeNonBatch (update : FibUpdate) : UpdaterSystem :=
  { s with updater := { s.updater with
      updatesForNonBatchFaceId := s.updater.updatesForNonBatchFaceId.filter (· ≠ update) } }

/-- The end of a command for another face. -/
def finishNonBatch (update : FibUpdate) : UpdaterSystem :=
  let s := s.removeNonBatch update
  if s.updater.updatesForNonBatchFaceId.length = 0 then s.onSuccess else s

def onUpdateSuccess (update : FibUpdate) : UpdaterSystem :=
  if update.faceId = s.updater.batchFaceId then
    let s := s.removeBatch update
    if s.updater.updatesForBatchFaceId.length = 0 then s.sendUpdatesForNonBatchFaceId else s
  else s.finishNonBatch update

/-- `onUpdateError`. A command is sent again by `sendAddNextHopUpdate`, for either action. -/
def onUpdateError (update : FibUpdate) (code nTimeouts : ℕ) : Option UpdaterSystem :=
  if code = errorTimeout ∧ nTimeouts < maxNumTimeouts then some (s.sendAddNextHopUpdate update (nTimeouts + 1))
  else if code = errorFaceNotFound then
    if update.faceId = s.updater.batchFaceId then some s.onFailure
    else some (s.finishNonBatch update)
  else none

end Updater

/-- What happens to a command: it reaches the manager and its answer is lost or comes later, it is answered, or it
times out. -/
inductive ControllerEvent where
  | reach (i : ℕ)
  | answer (i : ℕ)
  | timeout (i : ℕ)
deriving DecidableEq

section Run

variable (S : NextHopSort) (faceTable : List FaceId)

def step (s : UpdaterSystem) : ControllerEvent → Option UpdaterSystem
  | .reach i =>
    match s.sent[i]? with
    | none => some s
    | some p => some { s with fib := (p.2.execute S faceTable s.fib).1 }
  | .answer i =>
    match s.inFlight[i]? with
    | none => some s
    | some c =>
      let (fib, code) := c.command.execute S faceTable s.fib
      let s := { s with inFlight := s.inFlight.eraseIdx i, fib := fib }
      if code < errorLbound then some (s.onUpdateSuccess c.update)
      else s.onUpdateError c.update code c.nTimeouts
  | .timeout i =>
    match s.inFlight[i]? with
    | none => some s
    | some c => { s with inFlight := s.inFlight.eraseIdx i }.onUpdateError c.update errorTimeout c.nTimeouts

def run (u : FibUpdater) (t : Tables) (es : List ControllerEvent) : Option UpdaterSystem :=
  es.foldlM (step S faceTable) (UpdaterSystem.sendUpdatesForBatchFaceId { updater := u, fib := t })

end Run

end UpdaterSystem

/-- The computed updates, applied one after the other. -/
def FibUpdater.applyUpdates (S : NextHopSort) (faceTable : List FaceId) (u : FibUpdater) (t : Tables) : Tables :=
  (u.updatesForBatchFaceId ++ u.updatesForNonBatchFaceId).foldl (fun t x => (x.command.execute S faceTable t).1) t

namespace UpdaterSystem

/-- **Retries keep the commands**: each command sent is that of its update, and after `onSuccess` the FIB has the
next hops of the updates applied to the FIB as it was. -/
structure Preserved (S : NextHopSort) (faceTable : List FaceId) (u : FibUpdater) (t : Tables) (s : UpdaterSystem) :
    Prop where
  commands : ∀ p ∈ s.sent, p.2 = p.1.command
  fib : true ∈ s.callbacks → ∀ name face, s.fib.costOf name face = (u.applyUpdates S faceTable t).costOf name face

def NoRemovalTimeout (s : UpdaterSystem) : ControllerEvent → Prop
  | .timeout i => ∀ c ∈ s.inFlight[i]?, c.update.action = .addNextHop
  | _ => True

end UpdaterSystem

/-! ## What the FIB has of the updates -/

section Reflects

variable {S : NextHopSort} {faceTable : List FaceId}

def FibUpdate.written (faceTable : List FaceId) (u : FibUpdate) (cost : Option ℕ) : Option ℕ :=
  match u.action with
  | .addNextHop => if u.name.length ≤ maxDepth ∧ u.faceId ∈ faceTable then some u.cost else cost
  | .removeNextHop => if u.faceId ∈ faceTable then none else cost

theorem FibUpdate.written_written (u : FibUpdate) (cost : Option ℕ) :
    u.written faceTable (u.written faceTable cost) = u.written faceTable cost := by
  unfold FibUpdate.written
  cases u.action <;> split_ifs <;> rfl

theorem FibUpdate.costOf_execute {t : Tables} (h : t.Valid) (u : FibUpdate) (m : Name) (f : FaceId) :
    (u.command.execute S faceTable t).1.costOf m f =
      if m = u.name ∧ f = u.faceId then u.written faceTable (t.costOf u.name u.faceId) else t.costOf m f := by
  unfold FibUpdate.command FibUpdate.written
  cases u.action with
  | addNextHop =>
    simp only [FibCommand.execute, FibManager.costOf_addNextHop h]
    by_cases hm : m = u.name ∧ f = u.faceId
    · rw [if_pos hm, hm.1, hm.2]
      simp
    · rw [if_neg hm, if_neg fun hc => hm hc.1]
  | removeNextHop =>
    simp only [FibCommand.execute, FibManager.costOf_removeNextHop h]
    by_cases hm : m = u.name ∧ f = u.faceId
    · rw [if_pos hm, hm.1, hm.2]
      simp
    · rw [if_neg hm, if_neg fun hc => hm hc.1]

theorem FibUpdate.valid_execute {t : Tables} (h : t.Valid) (u : FibUpdate) :
    (u.command.execute S faceTable t).1.Valid := by
  unfold FibUpdate.command
  cases u.action with
  | addNextHop => exact FibManager.valid_addNextHop h _ _ _
  | removeNextHop => exact FibManager.valid_removeNextHop h _ _

/-- **The FIB while updates are applied**, from the FIB `t₀`: those not in `rest` have been applied, those in
`rest` may have been. -/
structure Reflects (faceTable : List FaceId) (t₀ : Tables) (updates rest : List FibUpdate) (t : Tables) : Prop where
  valid : t.Valid
  other : ∀ name face, (∀ x ∈ updates, x.target ≠ (name, face)) → t.costOf name face = t₀.costOf name face
  cases : ∀ x ∈ updates, t.costOf x.name x.faceId = t₀.costOf x.name x.faceId ∨
    t.costOf x.name x.faceId = x.written faceTable (t₀.costOf x.name x.faceId)
  applied : ∀ x ∈ updates, x ∉ rest → t.costOf x.name x.faceId = x.written faceTable (t₀.costOf x.name x.faceId)

variable {t₀ t : Tables} {updates rest rest' : List FibUpdate}

theorem reflects_init (h : t₀.Valid) (updates : List FibUpdate) : Reflects faceTable t₀ updates updates t₀ where
  valid := h
  other _ _ _ := rfl
  cases _ _ := Or.inl rfl
  applied _ hx hrest := absurd hx hrest

theorem Reflects.settle (h : Reflects faceTable t₀ updates rest t) {x : FibUpdate}
    (hx : t.costOf x.name x.faceId = x.written faceTable (t₀.costOf x.name x.faceId))
    (hrest : ∀ y ∈ rest, y ≠ x → y ∈ rest') : Reflects faceTable t₀ updates rest' t := by
  refine ⟨h.valid, h.other, h.cases, fun y hy hnot => ?_⟩
  by_cases hyx : y = x
  · rw [hyx, hx]
  · exact h.applied y hy fun hmem => hnot (hrest y hmem hyx)

/-- **A command changes nothing but the next hop of its update**, and leaves it as the update has it. -/
theorem Reflects.execute (h : Reflects faceTable t₀ updates rest t) (hnodup : (updates.map FibUpdate.target).Nodup)
    {x : FibUpdate} (hx : x ∈ updates) :
    Reflects faceTable t₀ updates rest (x.command.execute S faceTable t).1 ∧
      (x.command.execute S faceTable t).1.costOf x.name x.faceId =
        x.written faceTable (t₀.costOf x.name x.faceId) := by
  have hself : (x.command.execute S faceTable t).1.costOf x.name x.faceId =
      x.written faceTable (t₀.costOf x.name x.faceId) := by
    rw [x.costOf_execute h.valid, if_pos ⟨rfl, rfl⟩]
    rcases h.cases x hx with he | he
    · rw [he]
    · rw [he, FibUpdate.written_written]
  have hne : ∀ y ∈ updates, y ≠ x → (x.command.execute S faceTable t).1.costOf y.name y.faceId =
      t.costOf y.name y.faceId := by
    intro y hy hyx
    rw [x.costOf_execute h.valid, if_neg]
    rintro ⟨hname, hface⟩
    exact hyx (List.inj_on_of_nodup_map hnodup hy hx (Prod.ext hname hface))
  refine ⟨⟨x.valid_execute h.valid, fun name face hnot => ?_, fun y hy => ?_, fun y hy hrest => ?_⟩, hself⟩
  · rw [x.costOf_execute h.valid, if_neg, h.other name face hnot]
    rintro ⟨rfl, rfl⟩
    exact hnot x hx rfl
  · by_cases hyx : y = x
    · rw [hyx]
      exact Or.inr hself
    · rw [hne y hy hyx]
      exact h.cases y hy
  · by_cases hyx : y = x
    · rw [hyx]
      exact hself
    · rw [hne y hy hyx]
      exact h.applied y hy hrest

theorem reflects_foldl (hnodup : (updates.map FibUpdate.target).Nodup) (l : List FibUpdate) :
    (∀ x ∈ l, x ∈ updates) → ∀ {t}, Reflects faceTable t₀ updates (l ++ rest) t →
      Reflects faceTable t₀ updates rest (l.foldl (fun t x => (x.command.execute S faceTable t).1) t) := by
  induction l with
  | nil => exact fun _ _ h => h
  | cons x l ih =>
    intro hl t h
    obtain ⟨hexec, hx⟩ := h.execute (S := S) hnodup (hl x List.mem_cons_self)
    refine ih (fun y hy => hl y (List.mem_cons_of_mem _ hy)) (hexec.settle hx fun y hy hyx => ?_)
    exact (List.mem_cons.mp hy).resolve_left hyx

theorem Reflects.costOf_eq {t' : Tables} (h : Reflects faceTable t₀ updates [] t)
    (h' : Reflects faceTable t₀ updates [] t') (name : Name) (face : FaceId) :
    t.costOf name face = t'.costOf name face := by
  by_cases hx : ∃ x ∈ updates, x.target = (name, face)
  · obtain ⟨x, hmem, htarget⟩ := hx
    obtain ⟨rfl, rfl⟩ := Prod.mk.inj htarget
    rw [h.applied x hmem List.not_mem_nil, h'.applied x hmem List.not_mem_nil]
  · push Not at hx
    rw [h.other name face hx, h'.other name face hx]

end Reflects

namespace UpdaterSystem

/-! ## The invariant -/

section Inv

variable {S : NextHopSort} {faceTable : List FaceId} {u : FibUpdater} {t : Tables} {s s' : UpdaterSystem}

def computed (u : FibUpdater) : List FibUpdate := u.updatesForBatchFaceId ++ u.updatesForNonBatchFaceId

/-- A command in flight for an update. Those for other faces wait for the batch's own face. -/
structure Waiting (u : FibUpdater) (s : UpdaterSystem) (c : PendingCommand) : Prop where
  mem : c.update ∈ computed u
  command : c.command = c.update.command
  nTimeouts : c.update.action = .removeNextHop → c.nTimeouts = 0
  face : c.update.faceId ≠ s.updater.batchFaceId → s.updater.updatesForBatchFaceId = []

/-- **The invariant** of runs without timeouts of removals. -/
structure Inv (faceTable : List FaceId) (u : FibUpdater) (t : Tables) (s : UpdaterSystem) : Prop where
  reflects : Reflects faceTable t (computed u) (computed s.updater) s.fib
  batchFaceId : s.updater.batchFaceId = u.batchFaceId
  nonBatch : ∀ x ∈ s.updater.updatesForNonBatchFaceId, x ∈ computed u
  sent : ∀ p ∈ s.sent, p.1 ∈ computed u ∧ p.2 = p.1.command
  inFlight : ∀ c ∈ s.inFlight, Waiting u s c
  done : true ∈ s.callbacks → computed s.updater = []

theorem Inv.start (h : Inv faceTable u t s) {command : FibCommand} {update : FibUpdate} {nTimeouts : ℕ}
    (hc : Waiting u s ⟨command, update, nTimeouts⟩) : Inv faceTable u t (s.start command update nTimeouts) := by
  refine ⟨h.reflects, h.batchFaceId, h.nonBatch, fun p hp => ?_, fun c hmem => ?_, h.done⟩
  · rcases List.mem_append.mp hp with hp | hp
    · exact h.sent p hp
    · rw [List.mem_singleton.mp hp]
      exact ⟨hc.mem, hc.command⟩
  · rcases List.mem_append.mp hmem with hmem | hmem
    · exact ⟨(h.inFlight c hmem).mem, (h.inFlight c hmem).command, (h.inFlight c hmem).nTimeouts,
        (h.inFlight c hmem).face⟩
    · rw [List.mem_singleton.mp hmem]
      exact ⟨hc.mem, hc.command, hc.nTimeouts, hc.face⟩

theorem updater_sendUpdate (s : UpdaterSystem) (x : FibUpdate) : (s.sendUpdate x).updater = s.updater := by
  unfold sendUpdate
  cases x.action <;> rfl

theorem Inv.sendUpdates (l : List FibUpdate) : (∀ x ∈ l, x ∈ computed u) → ∀ {s}, Inv faceTable u t s →
    (∀ x ∈ l, x.faceId ≠ s.updater.batchFaceId → s.updater.updatesForBatchFaceId = []) →
    Inv faceTable u t (s.sendUpdates l) := by
  induction l with
  | nil => exact fun _ _ h _ => h
  | cons x l ih =>
    intro hl s h hface
    refine ih (fun y hy => hl y (List.mem_cons_of_mem _ hy)) (s := s.sendUpdate x) ?_ fun y hy => ?_
    · unfold sendUpdate
      cases haction : x.action with
      | addNextHop =>
        refine h.start ⟨hl x List.mem_cons_self, ?_, fun _ => rfl, hface x List.mem_cons_self⟩
        rw [FibUpdate.command, haction]
      | removeNextHop =>
        refine h.start ⟨hl x List.mem_cons_self, ?_, fun _ => rfl, hface x List.mem_cons_self⟩
        rw [FibUpdate.command, haction]
    · rw [updater_sendUpdate]
      exact hface y (List.mem_cons_of_mem _ hy)

section

variable (h : Inv faceTable u t s)

include h

theorem Inv.onSuccess (hdone : computed s.updater = []) :
    Inv faceTable u t s.onSuccess :=
  ⟨h.reflects, h.batchFaceId, h.nonBatch, h.sent,
    fun c hc => ⟨(h.inFlight c hc).mem, (h.inFlight c hc).command, (h.inFlight c hc).nTimeouts, (h.inFlight c hc).face⟩,
    fun _ => hdone⟩

theorem Inv.onFailure : Inv faceTable u t s.onFailure := by
  refine ⟨h.reflects, h.batchFaceId, h.nonBatch, h.sent,
    fun c hc => ⟨(h.inFlight c hc).mem, (h.inFlight c hc).command, (h.inFlight c hc).nTimeouts, (h.inFlight c hc).face⟩,
    fun hmem => h.done ?_⟩
  simpa [UpdaterSystem.onFailure] using hmem

variable {x : FibUpdate}

theorem Inv.shrink {v : FibUpdater}
    (hx : s.fib.costOf x.name x.faceId = x.written faceTable (t.costOf x.name x.faceId))
    (hface : v.batchFaceId = s.updater.batchFaceId)
    (hbatch : ∃ q : FibUpdate → Bool, v.updatesForBatchFaceId = s.updater.updatesForBatchFaceId.filter q ∧ ∀ y, q y = false → y = x)
    (hnonBatch : ∃ q : FibUpdate → Bool, v.updatesForNonBatchFaceId = s.updater.updatesForNonBatchFaceId.filter q ∧
      ∀ y, q y = false → y = x) :
    Inv faceTable u t { s with updater := v } := by
  obtain ⟨q, hq, hqx⟩ := hbatch
  obtain ⟨q', hq', hqx'⟩ := hnonBatch
  refine ⟨h.reflects.settle hx fun y hy hyx => ?_, hface.trans h.batchFaceId, fun y hy => ?_, h.sent,
    fun c hc => ?_, fun hmem => ?_⟩
  · simp only [computed, hq, hq', List.mem_append, List.mem_filter] at hy ⊢
    refine hy.imp (fun hy => ⟨hy, ?_⟩) fun hy => ⟨hy, ?_⟩
    · exact (Bool.eq_false_or_eq_true _).resolve_right fun hf => hyx (hqx y hf)
    · exact (Bool.eq_false_or_eq_true _).resolve_right fun hf => hyx (hqx' y hf)
  · change y ∈ v.updatesForNonBatchFaceId at hy
    rw [hq'] at hy
    exact h.nonBatch y (List.mem_of_mem_filter hy)
  · obtain ⟨hmem, hcommand, hn, hwait⟩ := h.inFlight c hc
    refine ⟨hmem, hcommand, hn, fun hne => ?_⟩
    change v.updatesForBatchFaceId = []
    rw [hq, hwait (hface ▸ hne), List.filter_nil]
  · have := h.done hmem
    simp only [computed, List.append_eq_nil_iff] at this ⊢
    rw [hq, hq', this.1, this.2]
    exact ⟨rfl, rfl⟩

theorem Inv.removeBatch (hx : s.fib.costOf x.name x.faceId = x.written faceTable (t.costOf x.name x.faceId)) :
    Inv faceTable u t (s.removeBatch x) :=
  h.shrink hx rfl ⟨_, rfl, fun y hy => by simpa using hy⟩ ⟨fun _ => true, (List.filter_true _).symm, by simp⟩

theorem Inv.removeNonBatch (hx : s.fib.costOf x.name x.faceId = x.written faceTable (t.costOf x.name x.faceId)) :
    Inv faceTable u t (s.removeNonBatch x) :=
  h.shrink hx rfl ⟨fun _ => true, (List.filter_true _).symm, by simp⟩ ⟨_, rfl, fun y hy => by simpa using hy⟩

theorem Inv.sendUpdatesForNonBatchFaceId (hnil : s.updater.updatesForBatchFaceId = []) :
    Inv faceTable u t s.sendUpdatesForNonBatchFaceId := by
  unfold UpdaterSystem.sendUpdatesForNonBatchFaceId
  split_ifs with hne
  · exact Inv.sendUpdates _ h.nonBatch h fun _ _ _ => hnil
  · refine h.onSuccess ?_
    rw [computed, hnil, List.nil_append]
    exact List.length_eq_zero_iff.mp (Nat.eq_zero_of_not_pos hne)

theorem Inv.finishNonBatch (hx : s.fib.costOf x.name x.faceId = x.written faceTable (t.costOf x.name x.faceId))
    (hnil : s.updater.updatesForBatchFaceId = []) : Inv faceTable u t (s.finishNonBatch x) := by
  have hremove := h.removeNonBatch hx
  unfold UpdaterSystem.finishNonBatch
  refine iteInduction (fun hzero => hremove.onSuccess ?_) fun _ => hremove
  rw [computed, List.length_eq_zero_iff.mp hzero, List.append_nil]
  exact hnil

theorem Inv.onUpdateSuccess (hx : s.fib.costOf x.name x.faceId = x.written faceTable (t.costOf x.name x.faceId))
    (hnil : x.faceId ≠ s.updater.batchFaceId → s.updater.updatesForBatchFaceId = []) :
    Inv faceTable u t (s.onUpdateSuccess x) := by
  have hremove := h.removeBatch hx
  unfold UpdaterSystem.onUpdateSuccess
  refine iteInduction (fun _ => iteInduction (fun hzero => ?_) fun _ => hremove) fun hface => ?_
  · exact hremove.sendUpdatesForNonBatchFaceId (List.length_eq_zero_iff.mp hzero)
  · exact h.finishNonBatch hx (hnil hface)

theorem Inv.onUpdateError {code nTimeouts : ℕ} (hmem : x ∈ computed u)
    (hx : code = errorFaceNotFound → s.fib.costOf x.name x.faceId = x.written faceTable (t.costOf x.name x.faceId))
    (haction : code = errorTimeout → x.action = .addNextHop)
    (hnil : x.faceId ≠ s.updater.batchFaceId → s.updater.updatesForBatchFaceId = [])
    (hs : s.onUpdateError x code nTimeouts = some s') : Inv faceTable u t s' := by
  unfold UpdaterSystem.onUpdateError at hs
  split_ifs at hs with htimeout hcode hface <;> cases hs
  · have hadd := haction htimeout.1
    refine h.start ⟨hmem, ?_, fun hremove => ?_, hnil⟩
    · rw [FibUpdate.command, hadd]
    · rw [hadd] at hremove
      cases hremove
  · exact h.onFailure
  · exact h.finishNonBatch (hx hcode) (hnil hface)

theorem Inv.move {l : List PendingCommand} {fib : Tables} (hl : ∀ c ∈ l, c ∈ s.inFlight)
    (hfib : Reflects faceTable t (computed u) (computed s.updater) fib) :
    Inv faceTable u t { s with inFlight := l, fib := fib } := by
  refine ⟨hfib, h.batchFaceId, h.nonBatch, h.sent, fun c hc => ?_, h.done⟩
  obtain ⟨hmem, hcommand, hn, hwait⟩ := h.inFlight c (hl c hc)
  exact ⟨hmem, hcommand, hn, hwait⟩

end

theorem execute_ne_errorTimeout (S : NextHopSort) (faceTable : List FaceId) (t : Tables) (command : FibCommand) :
    (command.execute S faceTable t).2 ≠ errorTimeout := by
  have hcodes : FibManager.codeOk ≠ errorTimeout ∧ FibManager.codeFaceNotFound ≠ errorTimeout ∧
      FibManager.codePrefixTooLong ≠ errorTimeout := by decide
  cases command with
  | addNextHop name faceId cost =>
    unfold FibCommand.execute FibManager.addNextHop
    dsimp only
    split_ifs
    · exact hcodes.2.2
    · exact hcodes.1
    · exact hcodes.2.1
  | removeNextHop name faceId =>
    unfold FibCommand.execute FibManager.removeNextHop
    dsimp only
    by_cases hface : faceId ∉ faceTable
    · rw [if_pos hface]
      exact hcodes.1
    · rw [if_neg hface]
      cases t.nameTree.findExactMatch name name.length <;> exact hcodes.1

/-- **A step that is not the timeout of a removal keeps the invariant.** -/
theorem Inv.step (h : Inv faceTable u t s) (hnodup : ((computed u).map FibUpdate.target).Nodup)
    {e : ControllerEvent} (hok : s.NoRemovalTimeout e) (hs : step S faceTable s e = some s') :
    Inv faceTable u t s' := by
  cases e with
  | reach i =>
    unfold UpdaterSystem.step at hs
    cases hp : s.sent[i]? with
    | none =>
      simp only [hp, Option.some_inj] at hs
      exact hs ▸ h
    | some p =>
      simp only [hp, Option.some_inj] at hs
      obtain ⟨hmem, hcommand⟩ := h.sent p (List.mem_of_getElem? hp)
      rw [← hs, hcommand]
      exact h.move (fun c hc => hc) (h.reflects.execute hnodup hmem).1
  | answer i =>
    unfold UpdaterSystem.step at hs
    cases hc : s.inFlight[i]? with
    | none =>
      simp only [hc, Option.some_inj] at hs
      exact hs ▸ h
    | some c =>
      obtain ⟨hmem, hcommand, -, hwait⟩ := h.inFlight c (List.mem_of_getElem? hc)
      obtain ⟨hfib, hx⟩ := h.reflects.execute (S := S) hnodup hmem
      have htake := h.move (fun c => List.mem_of_mem_eraseIdx (i := i)) hfib
      simp only [hc, hcommand] at hs
      split_ifs at hs with hcode
      · cases hs
        exact htake.onUpdateSuccess hx hwait
      · exact htake.onUpdateError hmem (fun _ => hx) (fun htimeout => absurd htimeout
          (execute_ne_errorTimeout S faceTable s.fib _)) hwait hs
  | timeout i =>
    unfold UpdaterSystem.step at hs
    cases hc : s.inFlight[i]? with
    | none =>
      simp only [hc, Option.some_inj] at hs
      exact hs ▸ h
    | some c =>
      obtain ⟨hmem, -, -, hwait⟩ := h.inFlight c (List.mem_of_getElem? hc)
      have htake := h.move (fun c => List.mem_of_mem_eraseIdx (i := i)) h.reflects
      simp only [hc] at hs
      refine htake.onUpdateError hmem (fun hcode => ?_) (fun _ => hok c hc) hwait hs
      exact absurd hcode (by decide)

/-- **The timeout of a removal** sends an addition for it. -/
theorem Inv.noRemovalTimeout (h : Inv faceTable u t s) {i : ℕ}
    (hcommands : ∀ s' ∈ UpdaterSystem.step S faceTable s (.timeout i), ∀ p ∈ s'.sent, p.2 = p.1.command) :
    s.NoRemovalTimeout (.timeout i) := by
  intro c hc
  have hc' : s.inFlight[i]? = some c := hc
  cases haction : c.update.action with
  | addNextHop => rfl
  | removeNextHop =>
    have hn := (h.inFlight c (List.mem_of_getElem? hc)).nTimeouts haction
    have hretry : errorTimeout = errorTimeout ∧ c.nTimeouts < maxNumTimeouts := by
      rw [hn]
      decide
    have hstep : UpdaterSystem.step S faceTable s (.timeout i) =
        some (UpdaterSystem.sendAddNextHopUpdate { s with inFlight := s.inFlight.eraseIdx i } c.update
          (c.nTimeouts + 1)) := by
      simp only [UpdaterSystem.step, hc']
      exact if_pos hretry
    have hsent := hcommands _ hstep (c.update, .addNextHop c.update.name c.update.faceId c.update.cost)
      (List.mem_append_right _ (List.mem_singleton_self _))
    simp [FibUpdate.command, haction] at hsent

/-! ## Runs -/

theorem Inv.init (ht : t.Valid) (hbatch : ∀ x ∈ u.updatesForBatchFaceId, x.faceId = u.batchFaceId) :
    Inv faceTable u t (sendUpdatesForBatchFaceId { updater := u, fib := t }) := by
  have hinit : Inv faceTable u t { updater := u, fib := t } :=
    ⟨reflects_init ht _, rfl, fun x hx => List.mem_append_right _ hx, by simp, by simp, by simp⟩
  unfold sendUpdatesForBatchFaceId
  split_ifs with hne
  · exact Inv.sendUpdates _ (fun x hx => List.mem_append_left _ hx) hinit fun x hx hface =>
      absurd (hbatch x hx) hface
  · exact hinit.sendUpdatesForNonBatchFaceId (List.length_eq_zero_iff.mp (Nat.eq_zero_of_not_pos hne))

theorem Inv.preserved (h : Inv faceTable u t s) (hnodup : ((computed u).map FibUpdate.target).Nodup)
    (ht : t.Valid) : Preserved S faceTable u t s := by
  refine ⟨fun p hp => (h.sent p hp).2, fun hdone name face => ?_⟩
  have happlied : Reflects faceTable t (computed u) [] (u.applyUpdates S faceTable t) := by
    refine reflects_foldl hnodup _ (fun x hx => hx) ?_
    rw [List.append_nil]
    exact reflects_init ht _
  exact (h.done hdone ▸ h.reflects).costOf_eq happlied name face

theorem run_concat (S : NextHopSort) (faceTable : List FaceId) (u : FibUpdater) (t : Tables)
    (es : List ControllerEvent) (e : ControllerEvent) :
    run S faceTable u t (es ++ [e]) = (run S faceTable u t es).bind fun s => step S faceTable s e := by
  simp [run, List.foldlM_append]

end Inv

theorem nodup_computed {f : ℕ} {P : Name → Prop} {u : FibUpdater} (h : FibUpdater.Valid f P u) :
    ((computed u).map FibUpdate.target).Nodup := by
  rw [computed, List.map_append]
  refine h.batch_nodup.append h.nonBatch_nodup fun p hp hp' => ?_
  obtain ⟨x, hx, rfl⟩ := List.mem_map.mp hp
  obtain ⟨y, hy, hxy⟩ := List.mem_map.mp hp'
  exact h.nonBatch y hy ((congrArg Prod.snd hxy).trans (h.batch x hx))

/-- **A run keeps the commands of the updates, and leaves the FIB that was computed, exactly when no removal times
out.** Every state of the run is looked at, for the updates computed from any RIB and any FIB. -/
theorem run_preserved_iff (S : NextHopSort) (faceTable : List FaceId) {rib : Rib} (htree : rib.Tree)
    {nth : NthElement} {update : RibUpdate} {u : FibUpdater}
    (hu : FibUpdater.computeUpdates rib nth update = some u) {t : Tables} (ht : t.Valid)
    (es : List ControllerEvent) :
    (∀ l, l <+: es → ∀ s ∈ run S faceTable u t l, Preserved S faceTable u t s) ↔
      ∀ l e, l ++ [e] <+: es → ∀ s ∈ run S faceTable u t l, s.NoRemovalTimeout e := by
  obtain ⟨_, -, -, hvalid⟩ := FibUpdater.computeUpdates_valid htree hu
  have hnodup := nodup_computed hvalid
  have hbatch : ∀ x ∈ u.updatesForBatchFaceId, x.faceId = u.batchFaceId := fun x hx =>
    (hvalid.batch x hx).trans hvalid.face.symm
  refine forall_prefix_iff_of_inv (R := fun l => ∀ s ∈ run S faceTable u t l, Inv faceTable u t s)
    ?_ (fun l h s hs => (h s hs).preserved hnodup ht) (fun l e h hok s' hs' => ?_) (fun l e h hp s hs => ?_) es
  · rintro s ⟨⟩
    exact Inv.init ht hbatch
  · rw [run_concat] at hs'
    obtain ⟨s, hs, hstep⟩ := Option.bind_eq_some_iff.mp hs'
    exact (h s hs).step hnodup (hok s hs) hstep
  · cases e with
    | timeout i =>
      refine (h s hs).noRemovalTimeout (S := S) fun s' hs' => (hp s' ?_).commands
      rw [run_concat]
      exact Option.bind_eq_some_iff.mpr ⟨s, hs, hs'⟩
    | reach i => trivial
    | answer i => trivial
def registration : FibUpdater :=
  { batchFaceId := 1, updatesForBatchFaceId := [.createAddUpdate Tables.nameA 1 10] }

def unregistration : FibUpdater :=
  { batchFaceId := 1, updatesForBatchFaceId := [.createRemoveUpdate Tables.nameA 1] }

/-- An addition may time out. -/
theorem run_preserved_registration :
    FibUpdater.computeUpdates .empty .sorting ⟨.register, Tables.nameA, { faceId := 1, cost := 10 }⟩ = some registration ∧
    ∀ l, l <+: [.timeout 0, .answer 0] → ∀ s ∈ run Tables.insertionSort [1] registration (.initial none) l,
      Preserved Tables.insertionSort [1] registration (.initial none) s := by
  have hu : FibUpdater.computeUpdates .empty .sorting
      ⟨.register, Tables.nameA, { faceId := 1, cost := 10 }⟩ = some registration := by decide
  refine ⟨hu, (run_preserved_iff Tables.insertionSort [1] Rib.tree_empty hu (Tables.valid_initial none) _).mpr ?_⟩
  rw [forall_step_iff_forall_fin]
  intro i
  fin_cases i
  · rintro s ⟨⟩ c ⟨⟩
    rfl
  · exact fun s hs => trivial

def registeredFib : Tables := (FibManager.addNextHop Tables.insertionSort [1] (.initial none) Tables.nameA 1 10).1

/-- **A removal that times out adds the next hop**, with cost 0, where the computed update removes it. -/
theorem not_preserved_unregistration :
    (∃ rib, Rib.run [.insert Tables.nameA { faceId := 1, cost := 10 }] = some rib ∧ FibUpdater.computeUpdates rib
      .sorting ⟨.unregister, Tables.nameA, { faceId := 1, cost := 10 }⟩ = some unregistration) ∧
    ∃ s, run Tables.insertionSort [1] unregistration registeredFib [.timeout 0, .answer 0] = some s ∧
      ¬ Preserved Tables.insertionSort [1] unregistration registeredFib s ∧
      true ∈ s.callbacks ∧ s.fib.costOf Tables.nameA 1 = some 0 ∧
      (unregistration.applyUpdates Tables.insertionSort [1] registeredFib).costOf Tables.nameA 1 = none := by
  have hu : ((Rib.run [.insert Tables.nameA { faceId := 1, cost := 10 }]).bind fun rib => FibUpdater.computeUpdates rib
      .sorting ⟨.unregister, Tables.nameA, { faceId := 1, cost := 10 }⟩) = some unregistration := by decide
  have hrun : ((run Tables.insertionSort [1] unregistration registeredFib [.timeout 0, .answer 0]).map fun s =>
      (s.callbacks, s.fib.costOf Tables.nameA 1)) = some ([true], some 0) := by decide
  have happly : (unregistration.applyUpdates Tables.insertionSort [1] registeredFib).costOf Tables.nameA 1 = none := by
    decide
  obtain ⟨rib, hrib⟩ := Option.bind_eq_some_iff.mp hu
  obtain ⟨s, hs, hobs⟩ := Option.map_eq_some_iff.mp hrun
  obtain ⟨hcallbacks, hcost⟩ := Prod.mk.inj hobs
  have hdone : true ∈ s.callbacks := by simp [hcallbacks]
  refine ⟨⟨rib, hrib⟩, s, hs, fun h => ?_, hdone, hcost, happly⟩
  have := h.fib hdone Tables.nameA 1
  rw [hcost, happly] at this
  cases this

end UpdaterSystem

end Ns3Ndn
