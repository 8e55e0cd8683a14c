import Ns3Ndn.Fw.QLearning

/-!
# What strategies may do

A strategy works on the tables through the functions of `fw::Strategy`: it sends Interests, Data and
Nacks, sets expiry timers, and keeps its own state. `Acts` is the closure of such edits on the PIT
entries in the table, and a strategy is lawful if its functions stay within it. The pipelines decompose
into the same edits, so what an edit keeps is kept by all of them.

* `Acts`, `Lawful`, `Reachable`: edits, strategies, and the states that a forwarder reaches;
* **`qLearningStrategy_lawful`**: the Q-learning strategy is lawful.
-/

namespace Ns3Ndn

open OrdLib

/-! ## Edits of a PIT entry -/

namespace PitEntry

/-- An entry has at most one record of each kind for a face. -/
structure Distinct (e : PitEntry) : Prop where
  inRecords : (e.inRecords.map InRecord.face).Nodup
  outRecords : (e.outRecords.map OutRecord.face).Nodup

structure Keeps (e e' : PitEntry) : Prop where
  interest : e'.interest = e.interest
  expiryTimer : e'.expiryTimer = e.expiryTimer
  distinct : e.Distinct → e'.Distinct

variable (e : PitEntry) (now : ℕ) (face : FaceId) (interest : Interest)

theorem Keeps.rfl' : e.Keeps e := ⟨rfl, rfl, id⟩

theorem Keeps.trans {e e' e'' : PitEntry} (h : e.Keeps e') (h' : e'.Keeps e'') : e.Keeps e'' :=
  ⟨h'.interest.trans h.interest, h'.expiryTimer.trans h.expiryTimer, fun hd => h'.distinct (h.distinct hd)⟩

theorem map_face_insertOrUpdateInRecord :
    (e.insertOrUpdateInRecord now face interest).inRecords.map InRecord.face =
      if face ∈ e.inRecords.map InRecord.face then e.inRecords.map InRecord.face
      else face :: e.inRecords.map InRecord.face := by
  have hany : (e.inRecords.any fun r => r.face == face) = true ↔
      face ∈ e.inRecords.map InRecord.face := by
    simp
  unfold insertOrUpdateInRecord
  dsimp only
  by_cases hface : face ∈ e.inRecords.map InRecord.face
  · rw [if_pos hface, if_pos (hany.mpr hface)]
    refine map_replaceF (fun r r' h => ?_) e.inRecords
    split_ifs at h with hr
    rw [← Option.some.inj h]
    exact (beq_iff_eq.mp hr).symm
  · rw [if_neg hface, if_neg (mt hany.mp hface)]
    rfl

theorem map_face_insertOrUpdateOutRecord :
    (e.insertOrUpdateOutRecord now face interest).outRecords.map OutRecord.face =
      if face ∈ e.outRecords.map OutRecord.face then e.outRecords.map OutRecord.face
      else face :: e.outRecords.map OutRecord.face := by
  have hany : (e.outRecords.any fun r => r.face == face) = true ↔
      face ∈ e.outRecords.map OutRecord.face := by
    simp
  unfold insertOrUpdateOutRecord
  by_cases hface : face ∈ e.outRecords.map OutRecord.face
  · rw [if_pos hface, if_pos (hany.mpr hface)]
    refine map_replaceF (fun r r' h => ?_) e.outRecords
    split_ifs at h with hr
    rw [← Option.some.inj h]
    exact (beq_iff_eq.mp hr).symm
  · rw [if_neg hface, if_neg (mt hany.mp hface)]
    rfl

theorem keeps_insertOrUpdateInRecord : e.Keeps (e.insertOrUpdateInRecord now face interest) := by
  have hsame : (e.insertOrUpdateInRecord now face interest).interest = e.interest ∧
      (e.insertOrUpdateInRecord now face interest).expiryTimer = e.expiryTimer ∧
      (e.insertOrUpdateInRecord now face interest).outRecords = e.outRecords := by
    unfold insertOrUpdateInRecord
    dsimp only
    split_ifs <;> exact ⟨rfl, rfl, rfl⟩
  refine ⟨hsame.1, hsame.2.1, fun hd => ⟨?_, hsame.2.2 ▸ hd.outRecords⟩⟩
  rw [map_face_insertOrUpdateInRecord]
  split_ifs with hface
  · exact hd.inRecords
  · exact List.nodup_cons.mpr ⟨hface, hd.inRecords⟩

theorem keeps_insertOrUpdateOutRecord : e.Keeps (e.insertOrUpdateOutRecord now face interest) := by
  have hsame : (e.insertOrUpdateOutRecord now face interest).interest = e.interest ∧
      (e.insertOrUpdateOutRecord now face interest).expiryTimer = e.expiryTimer ∧
      (e.insertOrUpdateOutRecord now face interest).inRecords = e.inRecords := by
    unfold insertOrUpdateOutRecord
    split_ifs <;> exact ⟨rfl, rfl, rfl⟩
  refine ⟨hsame.1, hsame.2.1, fun hd => ⟨hsame.2.2 ▸ hd.inRecords, ?_⟩⟩
  rw [map_face_insertOrUpdateOutRecord]
  split_ifs with hface
  · exact hd.outRecords
  · exact List.nodup_cons.mpr ⟨hface, hd.outRecords⟩

theorem keeps_deleteInRecord : e.Keeps (e.deleteInRecord face) :=
  ⟨rfl, rfl, fun hd => ⟨hd.inRecords.sublist (List.eraseP_sublist.map _), hd.outRecords⟩⟩

theorem keeps_deleteOutRecord : e.Keeps (e.deleteOutRecord face) :=
  ⟨rfl, rfl, fun hd => ⟨hd.inRecords, hd.outRecords.sublist (List.eraseP_sublist.map _)⟩⟩

theorem keeps_foldl_deleteInRecord (faces : List (FaceId × ℕ)) :
    e.Keeps (faces.foldl (fun e d => e.deleteInRecord d.1) e) :=
  List.foldlRecOn (motive := e.Keeps) faces _ (Keeps.rfl' e) fun e' he d _ =>
    he.trans (e'.keeps_deleteInRecord d.1)

theorem keeps_setIncomingNack (ingress : FaceId) (reason : NackReason) :
    e.Keeps
      { e with
        outRecords := e.outRecords.replaceF fun r =>
          if r.face == ingress then some { r with incomingNack := some reason } else none } := by
  refine ⟨rfl, rfl, fun hd => ⟨hd.inRecords, ?_⟩⟩
  change ((e.outRecords.replaceF _).map OutRecord.face).Nodup
  rw [map_replaceF fun r r' h => ?_]
  · exact hd.outRecords
  · split_ifs at h
    rw [← Option.some.inj h]

end PitEntry

namespace Forwarder

variable {κ δ σ : Type} {s t u : Forwarder κ δ σ}

/-- `onOutgoingNack`: only with an in-record, on a point-to-point face. -/
def onOutgoingNack (s : Forwarder κ δ σ) (reason : NackReason) (egress : FaceId) (id : ℕ) :
    Forwarder κ δ σ × Bool :=
  match s.faces egress, (s.pit.find? id).bind fun e => e.getInRecord egress with
  | some face, some inRecord =>
    if face.linkType ≠ .pointToPoint then (s, false)
    else
      ((s.modifyEntry id fun e => e.deleteInRecord egress).send
        (.nack egress ⟨inRecord.interest, reason⟩), true)
  | _, _ => (s, false)

/-- `Strategy::sendNacks`: to all downstreams that are not excepted. -/
def sendNacks (s : Forwarder κ δ σ) (reason : NackReason) (id : ℕ) (exceptFaces : List FaceId) :
    Forwarder κ δ σ :=
  let downstreams := ((s.pit.find? id).map fun e => e.inRecords.map InRecord.face).getD []
  (downstreams.filter fun f => f ∉ exceptFaces).foldl (fun s f => (s.onOutgoingNack reason f id).1) s

/-! ## Edits -/

/-- The tables and the clock are the same. Strategy, Content Store, Dead Nonce List, FIB and network
regions can differ. -/
structure SameTables (s t : Forwarder κ δ σ) : Prop where
  now : t.now = s.now
  faces : t.faces = s.faces
  lastFaceId : t.lastFaceId = s.lastFaceId
  pit : t.pit = s.pit
  pitOrder : t.pitOrder = s.pitOrder
  nextPitEntry : t.nextPitEntry = s.nextPitEntry
  expiryEvents : t.expiryEvents = s.expiryEvents
  nextEvent : t.nextEvent = s.nextEvent
  nSatisfiedInterests : t.nSatisfiedInterests = s.nSatisfiedInterests
  nUnsatisfiedInterests : t.nUnsatisfiedInterests = s.nUnsatisfiedInterests
  sent : t.sent = s.sent
  finalized : t.finalized = s.finalized

/-- **Edits of the tables by a strategy or a pipeline.** -/
inductive Acts (s : Forwarder κ δ σ) : Forwarder κ δ σ → Prop
  | refl : Acts s s
  | other {t u : Forwarder κ δ σ} : Acts s t → t.SameTables u → Acts s u
  | edit {t : Forwarder κ δ σ} (id : ℕ) {f : PitEntry → PitEntry} :
    Acts s t → (∀ e : PitEntry, e.Keeps (f e)) → Acts s (t.modifyEntry id f)
  | timer {t : Forwarder κ δ σ} {id : ℕ} (duration : ℕ) :
    Acts s t → (t.pit.find? id).isSome → Acts s (t.setExpiryTimer id duration)
  | send {t : Forwarder κ δ σ} (packet : Sent) : Acts s t → Acts s (t.send packet)

theorem Acts.trans (h : s.Acts t) (h' : t.Acts u) : s.Acts u := by
  induction h' with
  | refl => exact h
  | other _ hsame ih => exact ih.other hsame
  | edit id _ hf ih => exact ih.edit id hf
  | timer duration _ hid ih => exact ih.timer duration hid
  | send packet _ ih => exact ih.send packet

theorem modifyEntry_isSome (s : Forwarder κ δ σ) (id id' : ℕ) (f : PitEntry → PitEntry) :
    ((s.modifyEntry id f).pit.find? id').isSome = (s.pit.find? id').isSome := by
  rw [modifyEntry, OrdMap.find?_modify]
  split_ifs <;> simp

theorem setExpiryTimer_isSome (s : Forwarder κ δ σ) (id id' duration : ℕ) :
    ((s.setExpiryTimer id duration).pit.find? id').isSome = (s.pit.find? id').isSome :=
  s.modifyEntry_isSome id id' _

theorem Acts.isSome (h : s.Acts t) (id : ℕ) : (t.pit.find? id).isSome = (s.pit.find? id).isSome := by
  induction h with
  | refl => rfl
  | other _ hsame ih => rw [hsame.pit, ih]
  | edit id' _ _ ih => rw [modifyEntry_isSome, ih]
  | timer duration _ _ ih => rw [setExpiryTimer_isSome, ih]
  | send packet _ ih => exact ih

/-! ## The functions of a strategy are edits -/

theorem acts_onOutgoingInterest (s : Forwarder κ δ σ) (interest : Interest) (egress : FaceId)
    (face : Face) (id : ℕ) : s.Acts (s.onOutgoingInterest interest egress face id).1 := by
  unfold onOutgoingInterest
  split_ifs
  · exact .refl
  · exact (Acts.refl.edit id fun e => e.keeps_insertOrUpdateOutRecord _ _ _).send _

theorem acts_sendInterest (s : Forwarder κ δ σ) (interest : Interest) (egress : FaceId) (face : Face)
    (id : ℕ) : s.Acts (s.sendInterest interest egress face id).1 :=
  s.acts_onOutgoingInterest _ egress face id

theorem acts_onOutgoingData (s : Forwarder κ δ σ) (data : Data) (egress : FaceId) :
    s.Acts (s.onOutgoingData data egress).1 := by
  unfold onOutgoingData
  split
  · exact .refl
  · split_ifs
    · exact .refl
    · exact Acts.refl.send _

theorem Acts.close (h : s.Acts t) {id : ℕ} (hid : (s.pit.find? id).isSome) :
    s.Acts ((t.setExpiryTimer id 0).modifyEntry id fun e => { e with isSatisfied := true }) :=
  (h.timer 0 ((h.isSome id).trans hid)).edit id fun _ => ⟨rfl, rfl, fun hd => ⟨hd.1, hd.2⟩⟩

section

variable (s : Forwarder κ δ σ)

theorem acts_sendData (data : Data) (egress : FaceId) (id : ℕ) : s.Acts (s.sendData data egress id) := by
  unfold sendData
  cases he : s.pit.find? id with
  | none => exact .refl
  | some e =>
    have hedit : s.Acts (s.modifyEntry id fun e => e.deleteInRecord egress) :=
      Acts.refl.edit id fun e => e.keeps_deleteInRecord egress
    dsimp only
    split
    · exact hedit.trans (acts_onOutgoingData _ _ _)
    · have hsent := hedit.trans (acts_onOutgoingData _ data egress)
      split_ifs
      · exact hsent.close (by rw [he]; rfl)
      · exact hsent

end

/-! ## Lawful strategies -/

/-- The records of the PIT entries, the faces, the clock and what was sent are the same. -/
structure SameRecords (s t : Forwarder κ δ σ) : Prop where
  now : t.now = s.now
  faces : t.faces = s.faces
  pitOrder : t.pitOrder = s.pitOrder
  sent : t.sent = s.sent
  records : ∀ id, (t.pit.find? id).map (fun e => (e.interest, e.inRecords, e.outRecords)) =
    (s.pit.find? id).map fun e => (e.interest, e.inRecords, e.outRecords)

/-- **A lawful strategy** edits the tables through the functions of `fw::Strategy`, and
`beforeSatisfyInterest` neither sends packets nor changes records. -/
structure Lawful (S : Strategy κ δ σ) : Prop where
  afterReceiveInterest : ∀ (s : Forwarder κ δ σ) interest ingress face id, (s.pit.find? id).isSome →
    s.Acts (S.afterReceiveInterest s interest ingress face id)
  afterReceiveNack : ∀ (s : Forwarder κ δ σ) nack ingress id, (s.pit.find? id).isSome →
    s.Acts (S.afterReceiveNack s nack ingress id)
  beforeSatisfyInterest : ∀ (s : Forwarder κ δ σ) data ingress id, (s.pit.find? id).isSome →
    s.Acts (S.beforeSatisfyInterest s data ingress id) ∧
      s.SameRecords (S.beforeSatisfyInterest s data ingress id)

theorem SameRecords.rfl' (s : Forwarder κ δ σ) : s.SameRecords s := ⟨rfl, rfl, rfl, rfl, fun _ => rfl⟩

theorem Acts.setStrategy (h : s.Acts t) (strategy : σ) : s.Acts { t with strategy } :=
  h.other ⟨rfl, rfl, rfl, rfl, rfl, rfl, rfl, rfl, rfl, rfl, rfl, rfl⟩

theorem acts_sendToSelected (s : Forwarder κ δ QLearning) (selected : FaceId) (interest : Interest)
    (ingress : FaceId) (inFace : Face) {id : ℕ} (hid : (s.pit.find? id).isSome) :
    s.Acts (s.sendToSelected selected interest ingress inFace id) := by
  unfold sendToSelected
  split
  · exact Acts.refl.timer 0 hid
  case h_2 outFace _ =>
    have hsend := s.acts_sendInterest interest selected outFace id
    generalize s.sendInterest interest selected outFace id = r at hsend
    obtain ⟨t, _ | _⟩ := r
    · exact hsend
    · exact hsend.setStrategy _

/-- **The Q-learning strategy is lawful.** -/
theorem qLearningStrategy_lawful : Lawful (qLearningStrategy (κ := κ) (δ := δ)) where
  afterReceiveInterest s interest ingress face id hid := by
    have htape : s.Acts s.advanceTape := Acts.refl.setStrategy _
    refine htape.trans ?_
    change s.advanceTape.Acts (s.advanceTape.afterReceiveInterestWith _ interest ingress face id)
    unfold afterReceiveInterestWith
    split
    · exact .refl
    · split_ifs
      · exact .refl
      · split
        · exact Acts.refl.timer 0 hid
        · exact (Acts.refl.setStrategy _).trans (acts_sendToSelected _ _ _ _ _ hid)
  afterReceiveNack s nack ingress id _ := Acts.refl.setStrategy _
  beforeSatisfyInterest s data ingress id _ := ⟨.refl, .rfl' s⟩

/-! ## The pipelines are edits -/

section Pipelines

variable (E : Env κ δ) {S : Strategy κ δ σ} (hS : Lawful S)

section

variable (s : Forwarder κ δ σ)

theorem insertDeadNonceList_same (e : PitEntry) (upstream : Option FaceId) :
    s.SameTables (s.insertDeadNonceList E e upstream) := by
  unfold insertDeadNonceList
  dsimp only
  split_ifs <;> exact ⟨rfl, rfl, rfl, rfl, rfl, rfl, rfl, rfl, rfl, rfl, rfl, rfl⟩

theorem acts_onInterestLoop (interest : Interest) (ingress : FaceId) (face : Face) :
    s.Acts (s.onInterestLoop interest ingress face) := by
  unfold onInterestLoop
  split_ifs
  · exact .refl
  · exact Acts.refl.send _

theorem acts_closeUnsatisfied (satisfied : List (FaceId × ℕ)) (unsatisfied : List ((FaceId × ℕ) × ℕ)) :
    s.Acts (closeUnsatisfied satisfied s unsatisfied) := by
  induction unsatisfied generalizing s with
  | nil => exact .refl
  | cons d unsatisfied ih =>
    rw [closeUnsatisfied]
    split_ifs
    · have hedit : s.Acts (s.modifyEntry d.2 fun e => e.deleteInRecord d.1.1) :=
        Acts.refl.edit d.2 fun e => e.keeps_deleteInRecord d.1.1
      refine Acts.trans ?_ (ih _)
      split
      · exact hedit
      case h_2 e he =>
        split_ifs
        · refine hedit.close ?_
          rw [← hedit.isSome, he]
          rfl
        · exact hedit
    · exact ih s

theorem acts_sendDownstreams (data : Data) (ingress : FaceId) (face : Face) (endpoint : ℕ) (downstreams : List (FaceId × ℕ)) :
    s.Acts (sendDownstreams data ingress face endpoint s downstreams) := by
  induction downstreams generalizing s with
  | nil => exact .refl
  | cons d downstreams ih =>
    rw [sendDownstreams]
    split_ifs
    · exact ih s
    · exact (s.acts_onOutgoingData data d.1).trans (ih _)

include hS in
theorem acts_satisfyEntries (data : Data) (ingress : FaceId) (satisfied : List (FaceId × ℕ))
    (unsatisfied : List ((FaceId × ℕ) × ℕ)) (entries : List ℕ) :
    s.Acts (satisfyEntries E S data ingress s satisfied unsatisfied entries).1 := by
  induction entries generalizing s satisfied unsatisfied with
  | nil => exact .refl
  | cons id entries ih =>
    rw [satisfyEntries]
    cases he : s.pit.find? id with
    | none => exact ih ..
    | some e =>
      have hid : (s.pit.find? id).isSome := by rw [he]; rfl
      refine Acts.trans ?_ (ih ..)
      have hclose := (hS.beforeSatisfyInterest s data ingress id hid).1.close hid
      refine Acts.edit id ?_ fun e => ?_
      · dsimp only [satisfyInterest, List.isEmpty_nil]
        split
        · exact hclose
        · exact hclose.other (insertDeadNonceList_same E _ _ _)
      · exact ((⟨rfl, rfl, fun hd => ⟨hd.1, hd.2⟩⟩ : e.Keeps { e with
          dataFreshnessPeriod := data.freshnessPeriod }).trans
            (PitEntry.keeps_foldl_deleteInRecord _ _)).trans (PitEntry.keeps_deleteOutRecord _ _)

include hS in
theorem acts_onIncomingData (data : Data) (ingress : FaceId) (face : Face) (endpoint : ℕ) :
    s.Acts (s.onIncomingData E S data ingress face endpoint) := by
  have hcs : ∀ cs, s.Acts { s with cs } := fun cs =>
    Acts.refl.other ⟨rfl, rfl, rfl, rfl, rfl, rfl, rfl, rfl, rfl, rfl, rfl, rfl⟩
  unfold onIncomingData
  split_ifs
  · exact .refl
  · dsimp only [onDataUnsolicited]
    split_ifs
    · exact hcs _
    · exact .refl
    · exact (((hcs _).trans (acts_satisfyEntries E hS ..)).trans (acts_closeUnsatisfied ..)).trans
        (acts_sendDownstreams ..)

end

variable {id : ℕ}

theorem find?_of_acceptsNack {s : Forwarder κ δ σ} {nack : Nack} {ingress : FaceId} {face : Face}
    (h : s.acceptsNack nack ingress face = some id) : (s.pit.find? id).isSome := by
  unfold acceptsNack at h
  split_ifs at h
  split at h
  · cases h
  case h_2 id' e hfind =>
    have hmem : s.pit.find? id' = some e := s.pit.mem_toList.mp (List.mem_of_find?_eq_some hfind)
    split at h
    · cases h
    · split_ifs at h
      rw [← Option.some.inj h, hmem]
      rfl

include hS in
theorem acts_onIncomingNack (s : Forwarder κ δ σ) (nack : Nack) (ingress : FaceId) (face : Face) :
    s.Acts (s.onIncomingNack S nack ingress face) := by
  unfold onIncomingNack
  cases haccept : s.acceptsNack nack ingress face with
  | none => exact .refl
  | some id =>
    have hid := find?_of_acceptsNack haccept
    have hedit := Acts.refl.edit (s := s) id fun e => e.keeps_setIncomingNack ingress nack.reason
    dsimp only
    generalize s.modifyEntry id _ = t at hedit
    have hafter : ∀ {t'}, s.Acts t' → s.Acts (S.afterReceiveNack t' nack ingress id) := fun h =>
      h.trans (hS.afterReceiveNack _ nack ingress id ((h.isSome id).trans hid))
    split
    · exact hafter hedit
    · split_ifs
      · exact hafter hedit
      · exact hafter (hedit.timer 0 ((hedit.isSome id).trans hid))

/-! ### Interests -/

def insertPitEntry (s : Forwarder κ δ σ) (interest : Interest) : Forwarder κ δ σ :=
  { s with
    pit := s.pit.insert s.nextPitEntry { interest }
    pitOrder := s.pitOrder ++ [s.nextPitEntry]
    nextPitEntry := s.nextPitEntry + 1 }

def NoMatch (s : Forwarder κ δ σ) (interest : Interest) : Prop :=
  ∀ id e, s.pit.find? id = some e → e.canMatch interest = false

theorem pitInsert_cases (s : Forwarder κ δ σ) (interest : Interest) :
    (∃ id e, s.pit.find? id = some e ∧ s.pitInsert interest = (s, id, e)) ∨
      s.NoMatch interest ∧
        s.pitInsert interest = (s.insertPitEntry interest, s.nextPitEntry, { interest }) := by
  unfold pitInsert
  split
  case h_1 id e hfind =>
    exact Or.inl ⟨id, e, s.pit.mem_toList.mp (List.mem_of_find?_eq_some hfind), rfl⟩
  case h_2 hfind =>
    refine Or.inr ⟨fun id e he => ?_, rfl⟩
    have := List.find?_eq_none.mp hfind (id, e) (s.pit.mem_toList.mpr he)
    simpa using this

/-- An entry is edited and its timer is set, and edits follow. -/
def Arms (s : Forwarder κ δ σ) (id : ℕ) (t : Forwarder κ δ σ) : Prop :=
  ∃ (f : PitEntry → PitEntry) (duration : ℕ), (∀ e : PitEntry, e.Keeps (f e)) ∧
    ((s.modifyEntry id f).setExpiryTimer id duration).Acts t

theorem Arms.acts (h : s.Arms id t) (hid : (s.pit.find? id).isSome) : s.Acts t := by
  obtain ⟨f, duration, hf, hacts⟩ := h
  have hedit := Acts.refl.edit (s := s) id hf
  exact (hedit.timer duration ((hedit.isSome id).trans hid)).trans hacts

include hS in
theorem arms_onContentStoreHit (s : Forwarder κ δ σ) (interest : Interest) (ingress : FaceId)
    (data : Data) (hid : (s.pit.find? id).isSome) :
    s.Arms id (s.onContentStoreHit S interest ingress id data) := by
  refine ⟨fun e => { e with isSatisfied := true, dataFreshnessPeriod := data.freshnessPeriod }, 0,
    fun e => ⟨rfl, rfl, fun hd => ⟨hd.1, hd.2⟩⟩, ?_⟩
  refine Acts.trans ?_ (acts_sendData _ _ _ _)
  refine (hS.beforeSatisfyInterest _ _ 254 id ?_).1
  rw [setExpiryTimer_isSome, modifyEntry_isSome]
  exact hid

theorem arms_insertInRecord (s : Forwarder κ δ σ) (interest : Interest) (ingress : FaceId)
    (hid : (s.pit.find? id).isSome) : s.Arms id (s.insertInRecord interest ingress id) := by
  unfold insertInRecord
  have hid' : ((s.modifyEntry id fun e => e.insertOrUpdateInRecord s.now ingress interest).pit.find?
      id).isSome := by
    rw [modifyEntry_isSome]
    exact hid
  dsimp only
  split
  case h_1 hnone =>
    rw [hnone] at hid'
    cases hid'
  · exact ⟨_, _, fun e => e.keeps_insertOrUpdateInRecord _ _ _, .refl⟩

include hS in
theorem arms_onContentStoreMiss (s : Forwarder κ δ σ) (interest : Interest) (ingress : FaceId)
    (face : Face) (hid : (s.pit.find? id).isSome) :
    s.Arms id (s.onContentStoreMiss E S interest ingress face id) := by
  unfold onContentStoreMiss contentStoreMiss
  dsimp only
  generalize (if 0 < E.defaultHopLimit ∧ interest.hopLimit = none then
    { interest with hopLimit := some E.defaultHopLimit } else interest) = interest'
  have harms := s.arms_insertInRecord interest' ingress hid
  have hid' := ((harms.acts hid).isSome id).trans hid
  obtain ⟨f, duration, hf, hacts⟩ := harms
  refine ⟨f, duration, hf, hacts.trans ?_⟩
  cases interest'.nextHopFaceId with
  | none => exact hS.afterReceiveInterest _ _ _ _ _ hid'
  | some nextHop =>
    dsimp only
    split
    · exact .refl
    · exact acts_onOutgoingInterest ..

end Pipelines

/-! ## Turns -/

/-- **What an event can do to the tables.** -/
inductive Turn (s : Forwarder κ δ σ) : Forwarder κ δ σ → Prop
  | acts {t : Forwarder κ δ σ} : s.Acts t → Turn s t
  | insert {interest : Interest} {u t : Forwarder κ δ σ} : s.NoMatch interest →
    (s.insertPitEntry interest).SameTables u → u.Arms s.nextPitEntry t → Turn s t
  | finalize (E : Env κ δ) {event : ExpiryEvent} : event ∈ s.expiryEvents →
    Turn s ({ s with expiryEvents := s.expiryEvents.filter fun ev => ev.id ≠ event.id
      }.onInterestFinalize E event.pitEntry)
  | elapse (duration : ℕ) : Turn s { s with now := s.now + duration }
  | faces {u : Forwarder κ δ σ} (faces : FaceId → Option Face) (lastFaceId : FaceId) : s.Acts u →
    Turn s { u with faces, lastFaceId }

theorem acts_modifyEntries (s : Forwarder κ δ σ) (l : List (ℕ × PitEntry)) {f : PitEntry → PitEntry}
    (hf : ∀ e : PitEntry, e.Keeps (f e)) :
    s.Acts { s with pit := l.foldl (fun pit b => pit.modify b.1 f) s.pit } := by
  induction l generalizing s with
  | nil => exact .refl
  | cons b l ih => exact (Acts.refl.edit b.1 hf).trans (ih (s.modifyEntry b.1 f))

section Turns

variable (E : Env κ δ) {S : Strategy κ δ σ} (hS : Lawful S)

include hS in
theorem turn_hit_or_miss {u : Forwarder κ δ σ} {r : Option Data × κ} {interest : Interest}
    {ingress : FaceId} {face : Face} {id : ℕ} (hid : (u.pit.find? id).isSome)
    (harms : ∀ t, ({ u with cs := r.2 } : Forwarder κ δ σ).Arms id t → s.Turn t) :
    s.Turn (match (match r with
        | (some data, cs) => Incoming.hit { u with cs } interest id data
        | (none, cs) => .miss { u with cs } interest id) with
      | .done s => s
      | .hit s interest id data => s.onContentStoreHit S interest ingress id data
      | .miss s interest id => s.onContentStoreMiss E S interest ingress face id) := by
  obtain ⟨_ | data, cs⟩ := r
  · exact harms _ (arms_onContentStoreMiss E hS _ interest ingress face hid)
  · exact harms _ (arms_onContentStoreHit hS _ interest ingress data hid)

include hS in
theorem turn_lookupTables (s : Forwarder κ δ σ) (interest : Interest) (ingress : FaceId) (face : Face) :
    s.Turn (match s.lookupTables E interest ingress face with
      | .done s => s
      | .hit s interest id data => s.onContentStoreHit S interest ingress id data
      | .miss s interest id => s.onContentStoreMiss E S interest ingress face id) := by
  unfold lookupTables
  rcases s.pitInsert_cases interest with ⟨id, e, he, hinsert⟩ | ⟨hnone, hinsert⟩
  · have hid : (s.pit.find? id).isSome := by rw [he]; rfl
    rw [hinsert]
    dsimp only
    split_ifs
    · exact .acts (acts_onInterestLoop ..)
    · refine turn_hit_or_miss E hS hid fun t ht => .acts (Acts.trans ?_ (ht.acts hid))
      exact Acts.refl.other ⟨rfl, rfl, rfl, rfl, rfl, rfl, rfl, rfl, rfl, rfl, rfl, rfl⟩
    · exact .acts ((arms_onContentStoreMiss E hS s interest ingress face hid).acts hid)
  · have hid : ((s.insertPitEntry interest).pit.find? s.nextPitEntry).isSome := by
      rw [insertPitEntry, OrdMap.find?_insert_self]
      rfl
    rw [hinsert]
    -- a new entry has no records, so it has no duplicate Nonce
    change s.Turn (match (match E.csFind _ interest with
      | (some data, cs) => Incoming.hit _ interest _ data
      | (none, cs) => Incoming.miss _ interest _) with | .done s => s | .hit .. => _ | .miss .. => _)
    refine turn_hit_or_miss E hS hid fun t ht => .insert hnone ?_ ht
    exact ⟨rfl, rfl, rfl, rfl, rfl, rfl, rfl, rfl, rfl, rfl, rfl, rfl⟩

include hS in
/-- **Every event is a turn.** -/
theorem step_turn (s : Forwarder κ δ σ) (e : FwEvent) : s.Turn (s.step E S e) := by
  cases e with
  | interest ingress interest =>
    rw [step]
    split
    · exact .acts .refl
    · unfold onIncomingInterest incomingInterest
      split_ifs
      · exact .acts .refl
      · dsimp only
        split_ifs
        · exact .acts .refl
        · exact .acts (acts_onInterestLoop ..)
        · exact turn_lookupTables E hS ..
  | data ingress endpoint data =>
    rw [step]
    split
    · exact .acts .refl
    · exact .acts (acts_onIncomingData E hS ..)
  | nack ingress nack =>
    rw [step]
    split
    · exact .acts .refl
    · exact .acts (acts_onIncomingNack hS ..)
  | elapse duration => exact .elapse duration
  | expire event =>
    rw [step]
    split
    · exact .acts .refl
    case h_2 ev hfind =>
      split_ifs
      · have hid : ev.id = event := by simpa using List.find?_some hfind
        exact hid ▸ .finalize E (List.mem_of_find?_eq_some hfind)
      · exact .acts .refl
  | addFace face => exact .faces _ _ .refl
  | removeFace face =>
    have hrecords := s.acts_modifyEntries s.pit.toList fun e =>
      (e.keeps_deleteInRecord face).trans (PitEntry.keeps_deleteOutRecord _ face)
    exact .faces _ s.lastFaceId (hrecords.other (u := { s with
        pit := s.pit.toList.foldl (fun pit b =>
          pit.modify b.1 fun e => (e.deleteInRecord face).deleteOutRecord face) s.pit
        fib := fun prefixName => s.fib.removeNextHop prefixName face prefixName })
      ⟨rfl, rfl, rfl, rfl, rfl, rfl, rfl, rfl, rfl, rfl, rfl, rfl⟩)
  | setState face state => exact .faces _ s.lastFaceId .refl
  | addNextHop prefixName face cost =>
    rw [step, addNextHop]
    split_ifs
    · exact .acts .refl
    · split
      · exact .acts .refl
      · exact .acts (Acts.refl.other ⟨rfl, rfl, rfl, rfl, rfl, rfl, rfl, rfl, rfl, rfl, rfl, rfl⟩)
  | removeNextHop prefixName face =>
    rw [step]
    split_ifs
    · exact .acts (Acts.refl.other ⟨rfl, rfl, rfl, rfl, rfl, rfl, rfl, rfl, rfl, rfl, rfl, rfl⟩)
    · exact .acts .refl

end Turns

/-! ## Reachable states -/

structure Initial (s : Forwarder κ δ σ) : Prop where
  pit : s.pit = OrdMap.empty
  pitOrder : s.pitOrder = []
  nextPitEntry : s.nextPitEntry = 0
  expiryEvents : s.expiryEvents = []
  nSatisfiedInterests : s.nSatisfiedInterests = 0
  nUnsatisfiedInterests : s.nUnsatisfiedInterests = 0
  finalized : s.finalized = []

/-- **The states of a forwarder.** A strategy may also act on its own, from its timers and from the
callbacks that the pipelines leave out. -/
inductive Reachable (E : Env κ δ) (S : Strategy κ δ σ) : Forwarder κ δ σ → Prop
  | init {s : Forwarder κ δ σ} : s.Initial → Reachable E S s
  | step {s : Forwarder κ δ σ} (e : FwEvent) : Reachable E S s → Reachable E S (s.step E S e)
  | act {s t : Forwarder κ δ σ} : Reachable E S s → s.Acts t → Reachable E S t

/-- **The rule of invariants**: what holds at the start and is kept by turns holds in all states. -/
theorem Reachable.inv {E : Env κ δ} {S : Strategy κ δ σ} (hS : Lawful S)
    {I : Forwarder κ δ σ → Prop} (hinit : ∀ s, s.Initial → I s) (hturn : ∀ s t, s.Turn t → I s → I t)
    (h : Reachable E S s) : I s := by
  induction h with
  | init h => exact hinit _ h
  | step e _ ih => exact hturn _ _ (step_turn E hS _ e) ih
  | act _ hacts ih => exact hturn _ _ (.acts hacts) ih

theorem reachable_run {E : Env κ δ} {S : Strategy κ δ σ} (h : Reachable E S s) (es : List FwEvent) :
    Reachable E S (s.run E S es) :=
  List.foldlRecOn es _ h fun _ ht e _ => ht.step e

end Forwarder

end Ns3Ndn
