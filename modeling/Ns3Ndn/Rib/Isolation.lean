import Ns3Ndn.Rib.Records

/-!
# Isolation of RIB update batches

Each batch is to get one callback, one batch is to be in progress at a time, and a batch whose own
face does not exist is not to be applied. A batch fails at the first failed command for its own face,
while its other commands stay in flight. Their late answers are judged by the lists of the batch that
was computed last: they can fail the batch once more, find an empty list and make it succeed, or take
an update out of the list of another batch.

* **`run_isolated`**: a run without harmful late answers keeps the batches apart.
-/

namespace Ns3Ndn.RibSystem

open RunLib

variable {nth : NthElement} {s : RibSystem} {b : Batch}

/-! ## The property -/

def done (s : RibSystem) : List ℕ := s.callbacks.map Prod.fst

/-- The batch has been taken from the queue and has had no callback. -/
def InProgress (s : RibSystem) (id : ℕ) : Prop :=
  id < s.nBatches ∧ id ∉ s.updateBatches.map Batch.id ∧ id ∉ s.done

/-- **Batch isolation.** -/
structure Isolated (s : RibSystem) : Prop where
  /-- No batch has two callbacks. -/
  once : s.done.Nodup
  /-- When all commands are answered, every batch has had a callback. -/
  answered : s.inFlight = [] → ∀ id < s.nBatches, id ∈ s.done
  /-- One batch is in progress at a time. -/
  single : ∀ i j, s.InProgress i → s.InProgress j → i = j
  /-- Commands of other batches can be in flight only if these have failed. -/
  commands : ∀ c ∈ s.inFlight, s.InProgress c.batch.id ∨ (c.batch.id, false) ∈ s.callbacks
  /-- A batch with a failed command for its own face is not applied. -/
  failed : ∀ id ∈ s.ownFaceFailed, id ∉ s.applied

def judging (s : RibSystem) (faceId : ℕ) : List FibUpdate :=
  if faceId = s.updater.batchFaceId then s.updater.updatesForBatchFaceId
  else s.updater.updatesForNonBatchFaceId

/-- A late answer is not an error for the face of the batch that was computed last, leaves an update
in the list it is judged by, and takes none out of the list of a batch in progress. -/
def HarmlessStep (s : RibSystem) : QueueEvent → Prop
  | .answer i isSuccess => ∀ c ∈ s.inFlight[i]?, c.batch.id ∈ s.done →
      (isSuccess = false → c.update.faceId ≠ s.updater.batchFaceId) ∧
      (s.judging c.update.faceId).filter (· ≠ c.update) ≠ [] ∧
      (s.isUpdateInProgress = true → c.update ∉ s.judging c.update.faceId)
  | _ => True

instance (s : RibSystem) (e : QueueEvent) : Decidable (s.HarmlessStep e) :=
  match e with
  | .answer i _ => inferInstanceAs (Decidable (∀ c ∈ s.inFlight[i]?, _))
  | .beginApplyUpdate _ | .beginRemoveFace _ | .beginRemoveFailedFaces _ =>
    inferInstanceAs (Decidable True)

def HarmlessRun (nth : NthElement) : RibSystem → List QueueEvent → Prop
  | _, [] => True
  | s, e :: es => s.HarmlessStep e ∧
      match step nth s e with
      | .ok t => HarmlessRun nth t es
      | .error _ => True

instance decidableHarmlessRun (nth : NthElement) :
    (s : RibSystem) → (es : List QueueEvent) → Decidable (HarmlessRun nth s es)
  | _, [] => inferInstanceAs (Decidable True)
  | s, e :: es =>
    have : Decidable (match step nth s e with
        | .ok t => HarmlessRun nth t es
        | .error _ => True) :=
      match step nth s e with
      | .ok t => decidableHarmlessRun nth t es
      | .error _ => inferInstanceAs (Decidable True)
    inferInstanceAs (Decidable (_ ∧ _))

/-! ## The invariant -/

def sent (s : RibSystem) (b : Batch) : List FibUpdate :=
  (s.inFlight.filter fun c => c.batch = b).map Command.update

/-- The batches that have no callback yet are `ids`, in this order. -/
structure Base (s : RibSystem) (ids : List ℕ) : Prop where
  tree : s.rib.Tree
  order : s.done ++ ids = List.range s.nBatches
  applied : ∀ id ∈ s.applied, (id, true) ∈ s.callbacks
  failed : ∀ id ∈ s.ownFaceFailed, (id, false) ∈ s.callbacks

structure Ready (s : RibSystem) (batches : List Batch) : Prop where
  base : s.Base (batches.map Batch.id)
  idle : s.isUpdateInProgress = false
  late : ∀ c ∈ s.inFlight, (c.batch.id, false) ∈ s.callbacks

/-- The batch `b` has been computed and can be applied. -/
structure Started (s : RibSystem) (b : Batch) : Prop where
  base : s.Base (b.id :: s.updateBatches.map Batch.id)
  commands : ∀ c ∈ s.inFlight, (c.batch.id, false) ∈ s.callbacks ∨ c.batch = b
  valid : ∃ t, s.rib.applyUpdate b.update = some t ∧ t.Tree ∧
    s.updater.Valid b.update.route.faceId fun n => t.rib.find? n ≠ none

/-- The commands of `b` in flight are those in the list for its own face, or, when there are none
left, those in the other list. -/
structure Busy (s : RibSystem) (b : Batch) : Prop extends Started s b where
  busy : s.isUpdateInProgress = true
  pending : s.updater.updatesForBatchFaceId ≠ [] ∧
        (s.sent b).Perm s.updater.updatesForBatchFaceId ∨
      s.updater.updatesForBatchFaceId = [] ∧ s.updater.updatesForNonBatchFaceId ≠ [] ∧
        (s.sent b).Perm s.updater.updatesForNonBatchFaceId

/-- **The invariant**: nothing to do, or one batch in progress. -/
def Inv (s : RibSystem) : Prop :=
  s.updateBatches = [] ∧ s.Ready [] ∨ ∃ b, s.Busy b

/-! ## Starting and ending a batch -/

theorem Base.nodup {ids : List ℕ} (h : s.Base ids) : (s.done ++ ids).Nodup :=
  h.order ▸ List.nodup_range

theorem Started.not_done (h : s.Started b) : b.id ∉ s.done := fun hb =>
  (List.nodup_append.mp h.base.nodup).2.2 _ hb _ List.mem_cons_self rfl

theorem sent_eq_nil_iff : s.sent b = [] ↔ ∀ c ∈ s.inFlight, c.batch ≠ b := by
  simp [sent, List.filter_eq_nil_iff]

theorem mem_done {id : ℕ} {ok : Bool} (h : (id, ok) ∈ s.callbacks) : id ∈ s.done :=
  List.mem_map_of_mem h

theorem sent_sendUpdates (updates : List FibUpdate) :
    (s.sendUpdates updates b).sent b = s.sent b ++ updates := by
  have hall : (updates.map fun u => (⟨b, u⟩ : Command)).filter (fun c => c.batch = b) =
      updates.map fun u => ⟨b, u⟩ := by
    rw [List.filter_eq_self]
    intro c hc
    obtain ⟨u, -, rfl⟩ := List.mem_map.mp hc
    simp
  have hmap : (updates.map fun u => (⟨b, u⟩ : Command)).map Command.update = updates := by
    rw [List.map_map]
    exact List.map_id updates
  rw [sent, sendUpdates, List.filter_append, List.map_append, hall, hmap]
  rfl

theorem Started.sendUpdates (h : s.Started b) (updates : List FibUpdate) :
    (s.sendUpdates updates b).Started b := by
  refine ⟨⟨h.base.tree, h.base.order, h.base.applied, h.base.failed⟩, fun c hc => ?_, h.valid⟩
  rcases List.mem_append.mp hc with hc | hc
  · exact h.commands c hc
  · obtain ⟨u, -, rfl⟩ := List.mem_map.mp hc
    exact Or.inr rfl

/-- A started batch with no command in flight is applied: no assertion fails. -/
theorem Started.onFibUpdateSuccess (h : s.Started b) (hsent : s.sent b = []) :
    ∃ t, s.onFibUpdateSuccess b = .ok t ∧ t.updateBatches = s.updateBatches ∧
      t.Ready s.updateBatches := by
  obtain ⟨r, hr, htree, hvalid⟩ := h.valid
  obtain ⟨r', hr', htree', -⟩ := Rib.modifyInheritedRoutes_ok htree hvalid.records
  rw [RibSystem.onFibUpdateSuccess, hr, Option.bind_some, hr']
  refine ⟨_, rfl, rfl, ?_, rfl, ?_⟩
  · refine ⟨htree', ?_, fun id hid => ?_, fun id hid => ?_⟩
    · simpa [done] using h.base.order
    · rcases List.mem_append.mp hid with hid | hid
      · exact List.mem_append_left _ (h.base.applied id hid)
      · rw [List.mem_singleton.mp hid]
        exact List.mem_append_right _ List.mem_cons_self
    · exact List.mem_append_left _ (h.base.failed id hid)
  · intro c hc
    exact List.mem_append_left _ ((h.commands c hc).resolve_right (sent_eq_nil_iff.mp hsent c hc))

theorem Started.onFibUpdateFailure (h : s.Started b) {failed : List ℕ}
    (hf : ∀ id ∈ failed, id = b.id ∨ (id, false) ∈ s.callbacks) :
    ({ s with ownFaceFailed := failed }.onFibUpdateFailure b).Ready s.updateBatches := by
  refine ⟨⟨h.base.tree, ?_, fun id hid => ?_, fun id hid => ?_⟩, rfl, fun c hc => ?_⟩
  · simpa [done, RibSystem.onFibUpdateFailure] using h.base.order
  · exact List.mem_append_left _ (h.base.applied id hid)
  · rcases hf id hid with rfl | hid
    · exact List.mem_append_right _ List.mem_cons_self
    · exact List.mem_append_left _ hid
  · rcases h.commands c hc with hc | rfl
    · exact List.mem_append_left _ hc
    · exact List.mem_append_right _ List.mem_cons_self

/-- **The queue is taken up.** -/
theorem Ready.sendBatches {batches : List Batch} (h : s.Ready batches) :
    Yields (· = .nullRoute) Inv (sendBatches nth batches s) := by
  induction batches generalizing s with
  | nil =>
    refine Or.inl ⟨rfl, ⟨h.base.tree, h.base.order, h.base.applied, h.base.failed⟩, h.idle, h.late⟩
  | cons b batches ih =>
    rw [RibSystem.sendBatches]
    cases hu : FibUpdater.computeUpdates s.rib nth b.update with
    | none => exact rfl
    | some u =>
      dsimp only
      generalize ht : ({ s with updateBatches := batches, isUpdateInProgress := true, updater := u } :
        RibSystem) = t
      have hstart : t.Started b := by
        rw [← ht]
        exact ⟨⟨h.base.tree, h.base.order, h.base.applied, h.base.failed⟩,
          fun c hc => Or.inl (h.late c hc), FibUpdater.computeUpdates_valid h.base.tree hu⟩
      have hnone : t.sent b = [] := by
        rw [sent_eq_nil_iff]
        rintro c hc rfl
        have hlate : (c.batch.id, false) ∈ t.callbacks := by
          rw [← ht] at hc ⊢
          exact h.late c hc
        exact hstart.not_done (mem_done hlate)
      have hbusy : t.isUpdateInProgress = true := by rw [← ht]
      have hupdater : t.updater = u := by rw [← ht]
      have hqueue : t.updateBatches = batches := by rw [← ht]
      split_ifs with h1 h2
      · refine Or.inr ⟨b, hstart.sendUpdates _, hbusy, Or.inl ?_⟩
        rw [sent_sendUpdates, hnone]
        exact ⟨hupdater ▸ h1, hupdater ▸ List.Perm.refl _⟩
      · refine Or.inr ⟨b, hstart.sendUpdates _, hbusy, Or.inr ?_⟩
        rw [sent_sendUpdates, hnone]
        have hnil := not_ne_iff.mp h1
        exact ⟨hupdater ▸ hnil, hupdater ▸ h2, hupdater ▸ List.Perm.refl _⟩
      · obtain ⟨t', ht', -, hready⟩ := hstart.onFibUpdateSuccess hnone
        rw [ht']
        exact ih (hqueue ▸ hready)

theorem Ready.sendBatchFromQueue (h : s.Ready s.updateBatches) :
    Yields (· = .nullRoute) Inv (s.sendBatchFromQueue nth) := by
  rw [RibSystem.sendBatchFromQueue, h.idle, if_neg Bool.false_ne_true]
  exact h.sendBatches

theorem Started.succeed (h : s.Started b) (hsent : s.sent b = []) :
    Yields (· = .nullRoute) Inv (s.succeed nth b) := by
  obtain ⟨t, ht, hqueue, hready⟩ := h.onFibUpdateSuccess hsent
  rw [RibSystem.succeed, ht]
  exact Ready.sendBatchFromQueue (hqueue ▸ hready)

theorem Started.sendUpdatesForNonBatchFaceId (h : s.Started b) (hbusy : s.isUpdateInProgress = true)
    (hnil : s.updater.updatesForBatchFaceId = []) (hsent : s.sent b = []) :
    Yields (· = .nullRoute) Inv (s.sendUpdatesForNonBatchFaceId nth b) := by
  refine iteInduction (fun hne => ?_) fun _ => h.succeed hsent
  refine Or.inr ⟨b, h.sendUpdates _, hbusy, Or.inr ⟨hnil, hne, ?_⟩⟩
  rw [sent_sendUpdates, hsent]
  exact List.Perm.refl _

theorem Ready.addUpdateToQueue (h : s.Ready s.updateBatches) (update : RibUpdate) :
    (s.addUpdateToQueue update).Ready (s.addUpdateToQueue update).updateBatches := by
  refine ⟨⟨h.base.tree, ?_, h.base.applied, h.base.failed⟩, h.idle, h.late⟩
  change s.done ++ (s.updateBatches ++ [_]).map Batch.id = List.range (s.nBatches + 1)
  rw [List.map_append, ← List.append_assoc, h.base.order, List.range_succ]
  rfl

theorem Busy.addUpdateToQueue (h : s.Busy b) (update : RibUpdate) :
    (s.addUpdateToQueue update).Busy b := by
  refine ⟨⟨⟨h.base.tree, ?_, h.base.applied, h.base.failed⟩, h.commands, h.valid⟩, h.busy, h.pending⟩
  change s.done ++ b.id :: (s.updateBatches ++ [_]).map Batch.id = List.range (s.nBatches + 1)
  rw [List.map_append, ← List.cons_append, ← List.append_assoc, h.base.order, List.range_succ]
  rfl

theorem Inv.enqueue (h : s.Inv) (nth : NthElement) (updates : List RibUpdate) :
    Yields (· = .nullRoute) Inv
      ((updates.foldl RibSystem.addUpdateToQueue s).sendBatchFromQueue nth) := by
  rcases h with ⟨hqueue, hready⟩ | ⟨b, hbusy⟩
  · refine Ready.sendBatchFromQueue ?_
    refine List.foldlRecOn (motive := fun s : RibSystem => s.Ready s.updateBatches) _ _ (hqueue ▸ hready) ?_
    exact fun s hs update _ => hs.addUpdateToQueue update
  · have hbusy := List.foldlRecOn (motive := fun s : RibSystem => s.Busy b) updates _ hbusy
      fun s hs update _ => hs.addUpdateToQueue update
    rw [RibSystem.sendBatchFromQueue, hbusy.busy, if_pos rfl]
    exact Or.inr ⟨b, hbusy⟩

/-! ## Answers -/

def take (s : RibSystem) (i : ℕ) : RibSystem := { s with inFlight := s.inFlight.eraseIdx i }

section Answer

variable {i : ℕ} {c : Command}

theorem Base.take {ids : List ℕ} (h : s.Base ids) (i : ℕ) : (s.take i).Base ids :=
  ⟨h.tree, h.order, h.applied, h.failed⟩

theorem Started.take (h : s.Started b) (i : ℕ) : (s.take i).Started b :=
  ⟨h.base.take i, fun c hc => h.commands c (List.mem_of_mem_eraseIdx hc), h.valid⟩

theorem sent_perm (hc : s.inFlight[i]? = some c) :
    (s.sent b).Perm ((if c.batch = b then [c.update] else []) ++ (s.take i).sent b) := by
  obtain ⟨hi, rfl⟩ := List.getElem?_eq_some_iff.mp hc
  have hperm := (List.getElem_cons_eraseIdx_perm hi).symm
  have := (hperm.filter fun c => c.batch = b).map Command.update
  rw [List.filter_cons] at this
  refine this.trans ?_
  simp only [decide_eq_true_eq]
  split_ifs <;> exact List.Perm.refl _

theorem filter_perm {l sent : List FibUpdate} {x : FibUpdate}
    (hl : (l.map FibUpdate.target).Nodup) (h : (x :: sent).Perm l) :
    x ∈ l ∧ sent.Perm (l.filter (· ≠ x)) := by
  have hx : x ∈ l := h.subset List.mem_cons_self
  refine ⟨hx, ?_⟩
  have := h.erase x
  rw [List.erase_cons_head, (List.Nodup.of_map _ hl).erase_eq_filter] at this
  refine this.trans (List.Perm.of_eq (List.filter_congr fun y _ => ?_))
  rw [bne, beq_eq_decide, decide_not]

theorem Started.sublist (h : s.Started b) {updates updates' : List FibUpdate}
    (h1 : updates.Sublist s.updater.updatesForBatchFaceId)
    (h2 : updates'.Sublist s.updater.updatesForNonBatchFaceId) :
    ({ s with updater := { s.updater with
        updatesForBatchFaceId := updates
        updatesForNonBatchFaceId := updates' } } : RibSystem).Started b := by
  obtain ⟨t, ht, htree, hv⟩ := h.valid
  refine ⟨⟨h.base.tree, h.base.order, h.base.applied, h.base.failed⟩, h.commands, t, ht, htree, ?_⟩
  exact
    { face := hv.face
      batch := fun x hx => hv.batch x (h1.subset hx)
      nonBatch := fun x hx => hv.nonBatch x (h2.subset hx)
      batch_nodup := hv.batch_nodup.sublist (h1.map _)
      nonBatch_nodup := hv.nonBatch_nodup.sublist (h2.map _)
      records := hv.records }

theorem Busy.onNonBatchAnswer (h : s.Busy b) (hc : s.inFlight[i]? = some c) (hb : c.batch = b)
    (hnil : s.updater.updatesForBatchFaceId = [])
    (hp : (s.sent b).Perm s.updater.updatesForNonBatchFaceId) :
    Yields (· = .nullRoute) Inv ((s.take i).onNonBatchAnswer nth b c.update) := by
  obtain ⟨t, -, -, hv⟩ := h.valid
  have hsent := sent_perm (b := b) hc
  rw [if_pos hb] at hsent
  obtain ⟨-, hperm⟩ := filter_perm hv.nonBatch_nodup (hsent.symm.trans hp)
  have hstart := (h.toStarted.take i).sublist (List.Sublist.refl _)
    (List.filter_sublist (p := (· ≠ c.update)))
  unfold RibSystem.onNonBatchAnswer
  refine iteInduction (fun he => hstart.succeed ?_) fun hne => Or.inr ⟨b, hstart, h.busy, Or.inr ?_⟩
  · exact (he ▸ hperm).eq_nil
  · exact ⟨hnil, hne, hperm⟩

/-- What is answered is an update of the batch's face, or the last that is missing for the other faces. -/
theorem Busy.answered (nth : NthElement) (h : s.Busy b) (hc : s.inFlight[i]? = some c) (hb : c.batch = b) :
    (c.update.faceId = b.update.route.faceId ∧ c.update.faceId = (s.take i).updater.batchFaceId ∧
      ((s.take i).sent b).Perm (s.updater.updatesForBatchFaceId.filter (· ≠ c.update))) ∨
    (c.update.faceId ≠ b.update.route.faceId ∧ c.update.faceId ≠ (s.take i).updater.batchFaceId ∧
      Yields (· = .nullRoute) Inv ((s.take i).onNonBatchAnswer nth b c.update)) := by
  obtain ⟨t, -, -, hv⟩ := h.valid
  have hsent := sent_perm (b := b) hc
  rw [if_pos hb] at hsent
  rcases h.pending with ⟨-, hp⟩ | ⟨hnil, -, hp⟩
  · obtain ⟨hmem, hperm⟩ := filter_perm hv.batch_nodup (hsent.symm.trans hp)
    exact .inl ⟨hv.batch _ hmem, (hv.batch _ hmem).trans hv.face.symm, hperm⟩
  · obtain ⟨hmem, -⟩ := filter_perm hv.nonBatch_nodup (hsent.symm.trans hp)
    exact .inr ⟨hv.nonBatch _ hmem, fun he => hv.nonBatch _ hmem (he.trans hv.face), h.onNonBatchAnswer hc hb hnil hp⟩

theorem Busy.onUpdateSuccess (h : s.Busy b) (hc : s.inFlight[i]? = some c) (hb : c.batch = b) :
    Yields (· = .nullRoute) Inv ((s.take i).onUpdateSuccess nth b c.update) := by
  unfold RibSystem.onUpdateSuccess
  rcases h.answered nth hc hb with ⟨-, hface, hperm⟩ | ⟨-, hface, hother⟩
  · rw [if_pos hface]
    have hstart := (h.toStarted.take i).sublist (List.filter_sublist (p := (· ≠ c.update)))
      (List.Sublist.refl _)
    refine iteInduction (fun he => ?_) fun hne => Or.inr ⟨b, hstart, h.busy, Or.inl ⟨hne, hperm⟩⟩
    exact hstart.sendUpdatesForNonBatchFaceId h.busy he (he ▸ hperm).eq_nil
  · rwa [if_neg hface]

theorem Busy.onUpdateError (h : s.Busy b) (hc : s.inFlight[i]? = some c) (hb : c.batch = b) :
    Yields (· = .nullRoute) Inv ((s.take i).onUpdateError nth b c.update) := by
  unfold RibSystem.onUpdateError
  rcases h.answered nth hc hb with ⟨hbatch, hface, -⟩ | ⟨hbatch, hface, hother⟩
  · rw [if_pos hbatch]
    dsimp only
    rw [if_pos hface]
    refine Ready.sendBatchFromQueue ((h.toStarted.take i).onFibUpdateFailure fun id hid => ?_)
    rcases List.mem_append.mp hid with hid | hid
    · exact Or.inr (h.base.failed id hid)
    · exact Or.inl (List.mem_singleton.mp hid)
  · rw [if_neg hbatch]
    dsimp only
    rwa [if_neg hface]

/-- **A harmless late answer** changes the commands in flight, the lists of a batch that has ended,
and the record of failures. -/
theorem late_answer (nth : NthElement) {isSuccess : Bool} (hok : s.HarmlessStep (.answer i isSuccess))
    (hc : s.inFlight[i]? = some c) (hlate : c.batch.id ∈ s.done) :
    ∃ u failed, step nth s (.answer i isSuccess) =
        .ok { s.take i with updater := u, ownFaceFailed := failed } ∧
      (s.isUpdateInProgress = true → u = s.updater) ∧
      ∀ id ∈ failed, id ∈ s.ownFaceFailed ∨ id = c.batch.id := by
  obtain ⟨hface, hne, hmem⟩ := hok c hc hlate
  have hkeep : s.isUpdateInProgress = true → (s.judging c.update.faceId).filter (· ≠ c.update) =
      s.judging c.update.faceId := fun hbusy =>
    List.filter_eq_self.mpr fun x hx => decide_eq_true fun he => hmem hbusy (he ▸ hx)
  rw [step, hc]
  by_cases hf : c.update.faceId = s.updater.batchFaceId
  · obtain rfl : isSuccess = true := by simpa using fun h => hface h hf
    rw [judging, if_pos hf] at hne hkeep
    refine ⟨{ s.updater with
      updatesForBatchFaceId := s.updater.updatesForBatchFaceId.filter (· ≠ c.update) },
      s.ownFaceFailed, ?_, fun hb => by rw [hkeep hb], fun id hid => Or.inl hid⟩
    exact (if_pos hf).trans (if_neg hne)
  · rw [judging, if_neg hf] at hne hkeep
    have hanswer : ∀ failed, ({ s.take i with ownFaceFailed := failed } : RibSystem).onNonBatchAnswer
        nth c.batch c.update = .ok { s.take i with
          updater := { s.updater with
            updatesForNonBatchFaceId := s.updater.updatesForNonBatchFaceId.filter (· ≠ c.update) }
          ownFaceFailed := failed } := fun failed => if_neg hne
    refine ⟨{ s.updater with
      updatesForNonBatchFaceId := s.updater.updatesForNonBatchFaceId.filter (· ≠ c.update) },
      if isSuccess = false ∧ c.update.faceId = c.batch.update.route.faceId then
        s.ownFaceFailed ++ [c.batch.id] else s.ownFaceFailed, ?_, fun hb => by rw [hkeep hb], ?_⟩
    · cases isSuccess with
      | true =>
        simp only [Bool.true_eq_false, false_and, if_false]
        exact (if_neg hf).trans (hanswer _)
      | false =>
        simp only [true_and]
        change (s.take i).onUpdateError nth c.batch c.update = _
        unfold RibSystem.onUpdateError
        by_cases hown : c.update.faceId = c.batch.update.route.faceId
        · rw [if_pos hown, if_pos hown]
          exact (if_neg hf).trans (hanswer _)
        · rw [if_neg hown, if_neg hown]
          exact (if_neg hf).trans (hanswer _)
    · intro id hid
      split_ifs at hid
      · exact (List.mem_append.mp hid).imp_right List.mem_singleton.mp
      · exact Or.inl hid

end Answer

/-! ## Runs -/

theorem Inv.late_answer (h : s.Inv) {i : ℕ} {c : Command} {isSuccess : Bool}
    (hok : s.HarmlessStep (.answer i isSuccess)) (hc : s.inFlight[i]? = some c)
    (hlate : (c.batch.id, false) ∈ s.callbacks) :
    Yields (· = .nullRoute) Inv (step nth s (.answer i isSuccess)) := by
  obtain ⟨u, failed, hstep, hu, hfailed⟩ :=
    RibSystem.late_answer nth hok hc (mem_done hlate)
  rw [hstep]
  have hbase : ∀ {ids}, s.Base ids →
      ({ s.take i with updater := u, ownFaceFailed := failed } : RibSystem).Base ids := fun hb => by
    refine ⟨hb.tree, hb.order, hb.applied, fun id hid => ?_⟩
    rcases hfailed id hid with hid | rfl
    · exact hb.failed id hid
    · exact hlate
  rcases h with ⟨hqueue, hready⟩ | ⟨b, hbusy⟩
  · refine Or.inl ⟨hqueue, hbase hready.base, hready.idle, fun c hc => ?_⟩
    exact hready.late c (List.mem_of_mem_eraseIdx hc)
  · obtain rfl := hu hbusy.busy
    refine Or.inr ⟨b, ⟨hbase hbusy.base, fun c hc => ?_, hbusy.valid⟩, hbusy.busy, ?_⟩
    · exact hbusy.commands c (List.mem_of_mem_eraseIdx hc)
    · have hne : c.batch ≠ b := by
        rintro rfl
        exact hbusy.toStarted.not_done (mem_done hlate)
      have hsent := sent_perm (b := b) hc
      rw [if_neg hne, List.nil_append] at hsent
      exact hbusy.pending.imp (And.imp_right hsent.symm.trans)
        (And.imp_right (And.imp_right hsent.symm.trans))

/-- **A harmless step keeps the invariant.** -/
theorem Inv.step (h : s.Inv) (nth : NthElement) {e : QueueEvent} (hok : s.HarmlessStep e) :
    Yields (· = .nullRoute) Inv (step nth s e) := by
  have hremove : ∀ routes, Yields (· = .nullRoute) Inv
      ((s.addRemoveFace routes).sendBatchFromQueue nth) := fun routes => by
    have := h.enqueue nth (routes.map fun nr => ⟨.removeFace, nr.1, nr.2⟩)
    rwa [List.foldl_map] at this
  cases e with
  | beginApplyUpdate update => exact h.enqueue nth [update]
  | beginRemoveFace faceId => exact hremove _
  | beginRemoveFailedFaces activeFaceIds => exact hremove _
  | answer i isSuccess =>
    cases hc : s.inFlight[i]? with
    | none =>
      rw [RibSystem.step, hc]
      exact h
    | some c =>
      by_cases hlate : (c.batch.id, false) ∈ s.callbacks
      · exact h.late_answer hok hc hlate
      · have hmem := List.mem_of_getElem? hc
        rcases h with ⟨-, hready⟩ | ⟨b, hbusy⟩
        · exact absurd (hready.late c hmem) hlate
        · obtain rfl := (hbusy.commands c hmem).resolve_left hlate
          rw [RibSystem.step, hc]
          exact iteInduction (fun _ => hbusy.onUpdateSuccess hc rfl)
            fun _ => hbusy.onUpdateError hc rfl

theorem inv_init : Inv {} := by
  refine Or.inl ⟨rfl, ⟨Rib.tree_empty, rfl, ?_, ?_⟩, rfl, ?_⟩ <;> exact fun _ h => by cases h

theorem Base.inProgress_iff {cur : List ℕ} (h : s.Base (cur ++ s.updateBatches.map Batch.id))
    {id : ℕ} : s.InProgress id ↔ id ∈ cur := by
  have hmem : id < s.nBatches ↔ id ∈ s.done ∨ id ∈ cur ∨ id ∈ s.updateBatches.map Batch.id := by
    rw [← List.mem_range, ← h.order, List.mem_append, List.mem_append]
  obtain ⟨-, hids, hdone⟩ := List.nodup_append.mp h.nodup
  obtain ⟨-, -, hcur⟩ := List.nodup_append.mp hids
  constructor
  · rintro ⟨hlt, hqueue, hnot⟩
    exact ((hmem.mp hlt).resolve_left hnot).resolve_right hqueue
  · intro hid
    exact ⟨hmem.mpr (Or.inr (Or.inl hid)), fun hq => hcur id hid id hq rfl,
      fun hd => hdone id hd id (List.mem_append_left _ hid) rfl⟩

theorem Base.not_applied {ids : List ℕ} (h : s.Base ids) {id : ℕ} (hid : id ∈ s.ownFaceFailed) :
    id ∉ s.applied := fun ha => by
  have hnodup : s.done.Nodup := (List.nodup_append.mp h.nodup).1
  have := List.inj_on_of_nodup_map hnodup (h.applied id ha) (h.failed id hid) rfl
  simp at this

theorem Inv.isolated (h : s.Inv) : s.Isolated := by
  rcases h with ⟨hqueue, hready⟩ | ⟨b, hbusy⟩
  · have hbase : s.Base ([] ++ s.updateBatches.map Batch.id) := hqueue ▸ hready.base
    have hnone : ∀ id, ¬ s.InProgress id := fun id hid => by
      simpa using hbase.inProgress_iff.mp hid
    refine ⟨(List.nodup_append.mp hbase.nodup).1, fun _ id hid => ?_, fun i _ hi _ =>
      absurd hi (hnone i), fun c hc => Or.inr (hready.late c hc), fun id => hbase.not_applied⟩
    rw [← List.mem_range, ← hready.base.order] at hid
    simpa using hid
  · have hbase : s.Base ([b.id] ++ s.updateBatches.map Batch.id) := hbusy.base
    have hcur : ∀ id, s.InProgress id ↔ id = b.id := fun id => by
      rw [hbase.inProgress_iff, List.mem_singleton]
    refine ⟨(List.nodup_append.mp hbase.nodup).1, fun hnil => ?_, fun i j hi hj =>
      ((hcur i).mp hi).trans ((hcur j).mp hj).symm, fun c hc => ?_, fun id => hbase.not_applied⟩
    · have hsent : s.sent b = [] := by simp [sent, hnil]
      rcases hbusy.pending with ⟨hne, hp⟩ | ⟨-, hne, hp⟩
      · exact absurd (hsent ▸ hp).nil_eq.symm hne
      · exact absurd (hsent ▸ hp).nil_eq.symm hne
    · rcases hbusy.commands c hc with hlate | rfl
      · exact Or.inr hlate
      · exact Or.inl ((hcur _).mpr rfl)

/-- **Batches are isolated in every run without harmful late answers**, in every state reached. The
run goes on unless the updater uses a null `prevRoute`: no assertion fails. -/
theorem run_isolated (nth : NthElement) (es : List QueueEvent) (h : HarmlessRun nth {} es)
    (l : List QueueEvent) (hl : l <+: es) : Yields (· = .nullRoute) Isolated (run nth {} l) := by
  obtain ⟨r, rfl⟩ := hl
  refine Yields.mono (P := Inv) ?_ fun s hs => hs.isolated
  generalize hs : ({} : RibSystem) = s at h ⊢
  have hinv : s.Inv := hs ▸ inv_init
  clear hs
  induction l generalizing s with
  | nil => exact hinv
  | cons e l ih =>
    obtain ⟨hok, hrest⟩ := h
    have hstep := hinv.step nth hok
    rw [run, List.foldlM_cons]
    cases he : step nth s e with
    | error f =>
      rw [he] at hstep
      exact hstep
    | ok t =>
      rw [he] at hstep hrest
      exact ih t hrest hstep

/-- A RIB with a route for `/a/b` on face 1, and a route for `/a` on face 2 that `/a/b` inherits: two
commands for face 2. The first fails. -/
def twoCommands : List QueueEvent :=
  [.beginApplyUpdate ⟨.register, [⟨8, [97]⟩, ⟨8, [98]⟩], { faceId := 1 }⟩, .answer 0 true,
    .beginApplyUpdate ⟨.register, [⟨8, [97]⟩],
      { faceId := 2, cost := 10, flags := routeFlagChildInherit }⟩, .answer 0 false]

/-- A late success is harmless as long as a failed command stays in the list. -/
theorem run_isolated_lateSuccess :
    HarmlessRun .sorting {} (twoCommands ++ [.answer 0 true]) ∧
      Yields (· = .nullRoute) Isolated (run .sorting {} (twoCommands ++ [.answer 0 true])) := by
  have h : HarmlessRun .sorting {} (twoCommands ++ [.answer 0 true]) := by decide
  exact ⟨h, run_isolated .sorting _ h _ (List.prefix_refl _)⟩

/-- **A second error for the same face fails the batch twice.** -/
theorem not_isolated_lateError :
    ¬ Yields (· = .nullRoute) Isolated (run .sorting {} (twoCommands ++ [.answer 0 false])) := by
  have hdone : (run .sorting {} (twoCommands ++ [.answer 0 false])).toOption.map done =
      some [0, 1, 1] := by decide
  cases hrun : run .sorting {} (twoCommands ++ [.answer 0 false]) with
  | error f =>
    rw [hrun] at hdone
    cases hdone
  | ok s =>
    intro h
    rw [hrun] at hdone
    have honce : s.done.Nodup := h.once
    rw [Option.some.inj hdone] at honce
    exact absurd honce (by decide)

end Ns3Ndn.RibSystem
