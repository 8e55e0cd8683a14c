import Ns3Ndn.Lib.Run
import Ns3Ndn.Rib.FaceIndex
import Ns3Ndn.Rib.FibUpdater

/-!
# The queue of RIB update batches

`Rib::beginApplyUpdate` and what follows it: batches wait in a queue; the batch at its head is
computed, its FIB commands are sent, first those for its own face and then the others, and when all
are answered the update is applied to the RIB. A command that fails because its face does not exist
fails the batch if it was for the batch's own face.

The controller answers the commands in flight in any order, each with success or with
`ERROR_FACE_NOT_FOUND`. The answers are judged by `m_batchFaceId` and the lists of the updater, which
belong to the batch that was computed last.

Three components are not in the code: `callbacks` records the calls of `onFibUpdateSuccess` and
`onFibUpdateFailure`, `applied` the batches that were applied to the RIB, and `ownFaceFailed` the
batches with a failed command for their own face.
-/

namespace Ns3Ndn

open OrdLib

structure Batch where
  id : ℕ
  update : RibUpdate
deriving DecidableEq

/-- A FIB command that has not been answered, with the batch whose callbacks it holds. -/
structure Command where
  batch : Batch
  update : FibUpdate
deriving DecidableEq

/-- The use of a null pointer, or a failed assertion. -/
inductive RibFault where
  | nullRoute
  | assertion
deriving DecidableEq

structure RibSystem where
  rib : Rib := .empty
  updater : FibUpdater := {}
  updateBatches : List Batch := []
  isUpdateInProgress : Bool := false
  inFlight : List Command := []
  nBatches : ℕ := 0
  callbacks : List (ℕ × Bool) := []
  applied : List ℕ := []
  ownFaceFailed : List ℕ := []

def Rib.applyUpdate (s : Rib) (update : RibUpdate) : Option Rib :=
  match update.action with
  | .register => s.insert update.name update.route
  | .unregister | .removeFace => s.erase update.name update.route

/-- One turn of the loop of `modifyInheritedRoutes`; the entry must exist. -/
def Rib.modifyInheritedRoute (s : Rib) (update : RibUpdate) : Option Rib :=
  match s.rib.find? update.name with
  | none => none
  | some p =>
    match update.action with
    | .register => some (s.modify p fun e => e.addInheritedRoute update.route)
    | .unregister => some (s.modify p fun e => e.removeInheritedRoute update.route)
    | .removeFace => some s

def Rib.modifyInheritedRoutes (s : Rib) (updates : List RibUpdate) : Option Rib :=
  updates.foldlM Rib.modifyInheritedRoute s

namespace RibSystem

variable (nth : NthElement) (s : RibSystem)

def onFibUpdateSuccess (b : Batch) : Except RibFault RibSystem :=
  match (s.rib.applyUpdate b.update).bind fun rib =>
      rib.modifyInheritedRoutes s.updater.inheritedRoutes with
  | none => .error .assertion
  | some rib => .ok
      { s with
        rib := rib
        isUpdateInProgress := false
        callbacks := s.callbacks ++ [(b.id, true)]
        applied := s.applied ++ [b.id] }

def onFibUpdateFailure (b : Batch) : RibSystem :=
  { s with
    isUpdateInProgress := false
    callbacks := s.callbacks ++ [(b.id, false)] }

/-- `sendUpdates`. -/
def sendUpdates (updates : List FibUpdate) (b : Batch) : RibSystem :=
  { s with inFlight := s.inFlight ++ updates.map fun update => ⟨b, update⟩ }

/-- `sendBatchFromQueue` with the queue `batches`, while no update is in progress. A batch without
FIB updates succeeds at once, and the next one is taken. -/
def sendBatches : List Batch → RibSystem → Except RibFault RibSystem
  | [], s => .ok { s with updateBatches := [] }
  | b :: batches, s =>
    match FibUpdater.computeUpdates s.rib nth b.update with
    | none => .error .nullRoute
    | some u =>
      let s := { s with updateBatches := batches, isUpdateInProgress := true, updater := u }
      if u.updatesForBatchFaceId ≠ [] then .ok (s.sendUpdates u.updatesForBatchFaceId b)
      else if u.updatesForNonBatchFaceId ≠ [] then .ok (s.sendUpdates u.updatesForNonBatchFaceId b)
      else (s.onFibUpdateSuccess b).bind fun s => sendBatches batches s

/-- `sendBatchFromQueue`. -/
def sendBatchFromQueue : Except RibFault RibSystem :=
  if s.isUpdateInProgress then .ok s else sendBatches nth s.updateBatches s

def succeed (b : Batch) : Except RibFault RibSystem :=
  (s.onFibUpdateSuccess b).bind fun s => s.sendBatchFromQueue nth

/-- `sendUpdatesForNonBatchFaceId`. -/
def sendUpdatesForNonBatchFaceId (b : Batch) : Except RibFault RibSystem :=
  if s.updater.updatesForNonBatchFaceId ≠ [] then
    .ok (s.sendUpdates s.updater.updatesForNonBatchFaceId b)
  else s.succeed nth b

/-- An answer to a command for another face, of either kind. -/
def onNonBatchAnswer (b : Batch) (update : FibUpdate) : Except RibFault RibSystem :=
  let updates := s.updater.updatesForNonBatchFaceId.filter (· ≠ update)
  let s := { s with updater := { s.updater with updatesForNonBatchFaceId := updates } }
  if updates = [] then s.succeed nth b else .ok s

/-- `onUpdateSuccess`. -/
def onUpdateSuccess (b : Batch) (update : FibUpdate) : Except RibFault RibSystem :=
  if update.faceId = s.updater.batchFaceId then
    let updates := s.updater.updatesForBatchFaceId.filter (· ≠ update)
    let s := { s with updater := { s.updater with updatesForBatchFaceId := updates } }
    if updates = [] then s.sendUpdatesForNonBatchFaceId nth b else .ok s
  else s.onNonBatchAnswer nth b update

def onUpdateError (b : Batch) (update : FibUpdate) : Except RibFault RibSystem :=
  let s :=
    if update.faceId = b.update.route.faceId then
      { s with ownFaceFailed := s.ownFaceFailed ++ [b.id] }
    else s
  if update.faceId = s.updater.batchFaceId then (s.onFibUpdateFailure b).sendBatchFromQueue nth
  else s.onNonBatchAnswer nth b update

/-- `addUpdateToQueue`. -/
def addUpdateToQueue (update : RibUpdate) : RibSystem :=
  { s with updateBatches := s.updateBatches ++ [⟨s.nBatches, update⟩], nBatches := s.nBatches + 1 }

def addRemoveFace (routes : List (Name × Route)) : RibSystem :=
  routes.foldl (fun s nr => s.addUpdateToQueue ⟨.removeFace, nr.1, nr.2⟩) s

end RibSystem

/-- What happens to the queue: the manager's calls, and the answer to the command at a position among
those in flight. -/
inductive QueueEvent where
  | beginApplyUpdate (update : RibUpdate)
  | beginRemoveFace (faceId : ℕ)
  | beginRemoveFailedFaces (activeFaceIds : List ℕ)
  | answer (i : ℕ) (isSuccess : Bool)
deriving DecidableEq

namespace RibSystem

variable (nth : NthElement)

def step (s : RibSystem) : QueueEvent → Except RibFault RibSystem
  | .beginApplyUpdate update => (s.addUpdateToQueue update).sendBatchFromQueue nth
  | .beginRemoveFace faceId => (s.addRemoveFace (s.rib.beginRemoveFace faceId)).sendBatchFromQueue nth
  | .beginRemoveFailedFaces activeFaceIds =>
    (s.addRemoveFace (s.rib.beginRemoveFailedFaces activeFaceIds)).sendBatchFromQueue nth
  | .answer i isSuccess =>
    match s.inFlight[i]? with
    | none => .ok s
    | some c =>
      let s := { s with inFlight := s.inFlight.eraseIdx i }
      if isSuccess then s.onUpdateSuccess nth c.batch c.update
      else s.onUpdateError nth c.batch c.update

def run (s : RibSystem) (es : List QueueEvent) : Except RibFault RibSystem := es.foldlM (step nth) s

end RibSystem

end Ns3Ndn
