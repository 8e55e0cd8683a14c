import Ns3Ndn.Fw.Lawful
import Ns3Ndn.Fw.QLearningScope

/-!
# Delivery of Data

`onIncomingData` collects the downstreams of all PIT entries that match a Data packet, deletes in-records
on the way, and sends the Data once to each downstream. An entry can keep the expired in-record of a face
that a later entry makes a downstream. Downstreams are recorded with endpoint 0, and one is left out only
if the Data came in from the same face and endpoint.

* **`reachable_delivered_iff`**: delivery is exact, and the records are deleted unless an expired one
  stays behind;
* **`reachable_noEcho_iff`**: Data goes back to the face it came from just if it came in on an endpoint
  other than 0 and the face is a downstream.
-/

namespace Ns3Ndn

open OrdLib

/-! ## Records -/

def deleteInRecords (faces : List FaceId) (records : List InRecord) : List InRecord :=
  faces.foldl (fun records f => records.eraseP fun r => r.face == f) records

theorem map_eraseP_beq {ρ : Type} (face : ρ → FaceId) (records : List ρ) (f : FaceId) :
    (records.eraseP fun r => face r == f).map face = (records.map face).erase f := by
  induction records with
  | nil => rfl
  | cons r records ih =>
    rw [List.eraseP_cons, List.map_cons, List.erase_cons]
    by_cases hr : face r = f
    · simp [hr]
    · rw [beq_eq_false_iff_ne.mpr hr, cond_false, List.map_cons, ih, if_neg (by simp)]

theorem mem_face_deleteInRecords {faces : List FaceId} {records : List InRecord}
    (h : (records.map InRecord.face).Nodup) (f : FaceId) :
    f ∈ (deleteInRecords faces records).map InRecord.face ↔
      f ∈ records.map InRecord.face ∧ f ∉ faces := by
  induction faces generalizing records with
  | nil => simp [deleteInRecords]
  | cons g faces ih =>
    have hnodup : ((records.eraseP fun r => r.face == g).map InRecord.face).Nodup := by
      rw [map_eraseP_beq InRecord.face]
      exact h.erase g
    rw [deleteInRecords, List.foldl_cons]
    refine (ih hnodup).trans ?_
    rw [map_eraseP_beq InRecord.face, h.mem_erase_iff, List.mem_cons]
    tauto

namespace Forwarder

variable {κ δ σ : Type} {s t : Forwarder κ δ σ}

def recordsOf (s : Forwarder κ δ σ) (id : ℕ) : List InRecord × List OutRecord :=
  ((s.pit.find? id).map fun e => (e.inRecords, e.outRecords)).getD ([], [])

def inFaces (s : Forwarder κ δ σ) (id : ℕ) : List FaceId := (s.recordsOf id).1.map InRecord.face

def outFaces (s : Forwarder κ δ σ) (id : ℕ) : List FaceId := (s.recordsOf id).2.map OutRecord.face

def pendingRecords (s : Forwarder κ δ σ) (id : ℕ) : List InRecord :=
  (s.recordsOf id).1.filter fun r => s.now < r.expiry

def pendingFaces (s : Forwarder κ δ σ) (id : ℕ) : List FaceId :=
  (s.pendingRecords id).map InRecord.face

/-- A step of the pipeline that sends nothing. -/
structure Silent (s t : Forwarder κ δ σ) : Prop where
  now : t.now = s.now
  faces : t.faces = s.faces
  sent : t.sent = s.sent

theorem Silent.trans {s t u : Forwarder κ δ σ} (h : s.Silent t) (h' : t.Silent u) : s.Silent u :=
  ⟨h'.now.trans h.now, h'.faces.trans h.faces, h'.sent.trans h.sent⟩

theorem SameRecords.recordsOf_eq (h : s.SameRecords t) (id : ℕ) : t.recordsOf id = s.recordsOf id := by
  have := congrArg (Option.map fun r : Interest × List InRecord × List OutRecord => r.2) (h.records id)
  rw [Option.map_map, Option.map_map] at this
  exact congrArg (Option.getD · ([], [])) this

theorem recordsOf_modifyEntry (s : Forwarder κ δ σ) (id id' : ℕ) {f : PitEntry → PitEntry}
    {g : List InRecord × List OutRecord → List InRecord × List OutRecord} (hnil : g ([], []) = ([], []))
    (hf : ∀ e, ((f e).inRecords, (f e).outRecords) = g (e.inRecords, e.outRecords)) :
    (s.modifyEntry id f).recordsOf id' =
      if id = id' then g (s.recordsOf id') else s.recordsOf id' := by
  unfold recordsOf modifyEntry
  dsimp only
  rw [OrdMap.find?_modify]
  split_ifs with hid
  · cases s.pit.find? id' with
    | none => simp [hnil]
    | some e => simp [hf]
  · rfl

theorem recordsOf_modifyEntry_same (s : Forwarder κ δ σ) (id id' : ℕ) {f : PitEntry → PitEntry}
    (hf : ∀ e, ((f e).inRecords, (f e).outRecords) = (e.inRecords, e.outRecords)) :
    (s.modifyEntry id f).recordsOf id' = s.recordsOf id' := by
  rw [recordsOf_modifyEntry s id id' (g := fun r => r) rfl hf]
  split_ifs <;> rfl

theorem recordsOf_setExpiryTimer (s : Forwarder κ δ σ) (id id' duration : ℕ) :
    (s.setExpiryTimer id duration).recordsOf id' = s.recordsOf id' :=
  s.recordsOf_modifyEntry_same id id' fun _ => rfl

/-! ## The loop over the matching entries -/

def satisfyRecords (satisfied : List (FaceId × ℕ)) (ingress : FaceId)
    (r : List InRecord × List OutRecord) : List InRecord × List OutRecord :=
  (deleteInRecords (satisfied.map Prod.fst) r.1, r.2.eraseP fun o => o.face == ingress)

theorem foldl_deleteInRecord (e : PitEntry) (satisfied : List (FaceId × ℕ)) :
    (satisfied.foldl (fun e d => e.deleteInRecord d.1) e).inRecords =
        deleteInRecords (satisfied.map Prod.fst) e.inRecords ∧
      (satisfied.foldl (fun e d => e.deleteInRecord d.1) e).outRecords = e.outRecords := by
  induction satisfied generalizing e with
  | nil => exact ⟨rfl, rfl⟩
  | cons d satisfied ih => exact ih (e.deleteInRecord d.1)

theorem satisfyRecords_nil (satisfied : List (FaceId × ℕ)) (ingress : FaceId) :
    satisfyRecords satisfied ingress ([], []) = ([], []) := by
  have hnil : ∀ faces, deleteInRecords faces [] = [] := by
    intro faces
    induction faces with
    | nil => rfl
    | cons f faces ih => exact ih
  rw [satisfyRecords, hnil]
  rfl

/-- The part of the loop that puts the nonces of an entry on the Dead Nonce List. -/
def insertNonces (E : Env κ δ) (ingress : FaceId) (s : Forwarder κ δ σ) (id : ℕ) : Forwarder κ δ σ :=
  match s.pit.find? id with
  | none => s
  | some e => insertDeadNonceList E s e (some ingress)

theorem insertNonces_same (E : Env κ δ) (ingress : FaceId) (s : Forwarder κ δ σ) (id : ℕ) :
    s.SameTables (insertNonces E ingress s id) := by
  unfold insertNonces
  split
  · exact ⟨rfl, rfl, rfl, rfl, rfl, rfl, rfl, rfl, rfl, rfl, rfl, rfl⟩
  · exact insertDeadNonceList_same ..

section Satisfy

variable (E : Env κ δ) {S : Strategy κ δ σ} (hS : Lawful S) (data : Data) (ingress : FaceId)
include hS

/-- **One turn of the loop.** -/
theorem satisfyEntries_cons (s : Forwarder κ δ σ) (satisfied : List (FaceId × ℕ))
    (unsatisfied : List ((FaceId × ℕ) × ℕ)) {id : ℕ} (entries : List ℕ)
    (hid : (s.pit.find? id).isSome) :
    ∃ t, s.Silent t ∧ s.Acts t ∧
      satisfyEntries E S data ingress s satisfied unsatisfied (id :: entries) =
        satisfyEntries E S data ingress t (satisfied ∪ (s.pendingFaces id).map (·, 0)) unsatisfied
          entries ∧
      ∀ id', t.recordsOf id' =
        if id = id' then
          satisfyRecords (satisfied ∪ (s.pendingFaces id).map (·, 0)) ingress (s.recordsOf id')
        else s.recordsOf id' := by
  obtain ⟨e, he⟩ := Option.isSome_iff_exists.mp hid
  have hrecords : s.recordsOf id = (e.inRecords, e.outRecords) := by
    rw [recordsOf, he]
    rfl
  have hdown : (e.inRecords.filter fun r => s.now < r.expiry).map (fun r => (r.face, 0)) =
      (s.pendingFaces id).map (·, 0) := by
    rw [pendingFaces, pendingRecords, hrecords, List.map_map]
    rfl
  obtain ⟨hacts, hsame⟩ := hS.beforeSatisfyInterest s data ingress id hid
  have hclose := hacts.close hid
  rw [satisfyEntries, he]
  dsimp only [satisfyInterest, List.isEmpty_nil]
  rw [hdown, List.map_nil, List.append_nil, if_pos rfl]
  set b := S.beforeSatisfyInterest s data ingress id
  set c := (b.setExpiryTimer id 0).modifyEntry id fun e => { e with isSatisfied := true } with hc
  have hcs : s.Silent c := ⟨hsame.now, hsame.faces, hsame.sent⟩
  have hcRecords : ∀ id', c.recordsOf id' = s.recordsOf id' := by
    intro id'
    have hset : c.recordsOf id' = (b.setExpiryTimer id 0).recordsOf id' :=
      recordsOf_modifyEntry_same _ id id' fun _ => rfl
    rw [hset, recordsOf_setExpiryTimer, hsame.recordsOf_eq]
  set d := insertNonces E ingress c id
  have hdnl : c.SameTables d := insertNonces_same E ingress c id
  refine ⟨_, ?_, ?_, rfl, fun id' => ?_⟩
  · exact hcs.trans ⟨hdnl.now, hdnl.faces, hdnl.sent⟩
  · refine (hclose.other hdnl).edit id fun e => ?_
    exact ((⟨rfl, rfl, fun hd => ⟨hd.1, hd.2⟩⟩ : e.Keeps { e with
      dataFreshnessPeriod := data.freshnessPeriod }).trans
        (PitEntry.keeps_foldl_deleteInRecord _ _)).trans (PitEntry.keeps_deleteOutRecord _ _)
  · have hdRecords : d.recordsOf id' = s.recordsOf id' := by
      rw [← hcRecords, recordsOf, hdnl.pit]
      rfl
    rw [← hdRecords]
    refine recordsOf_modifyEntry d id id' (satisfyRecords_nil _ ingress) fun e => ?_
    obtain ⟨hin, hout⟩ := foldl_deleteInRecord { e with dataFreshnessPeriod := data.freshnessPeriod }
      (satisfied ∪ (s.pendingFaces id).map (·, 0))
    simp only [PitEntry.deleteOutRecord, satisfyRecords, hin, hout]

/-- The downstreams after a number of turns. -/
def gather (s : Forwarder κ δ σ) (satisfied : List (FaceId × ℕ)) (entries : List ℕ) :
    List (FaceId × ℕ) :=
  entries.foldl (fun satisfied id => satisfied ∪ (s.pendingFaces id).map (·, 0)) satisfied

omit hS in
theorem gather_congr {s t : Forwarder κ δ σ} (satisfied : List (FaceId × ℕ)) {entries : List ℕ}
    (h : ∀ id ∈ entries, t.pendingFaces id = s.pendingFaces id) :
    t.gather satisfied entries = s.gather satisfied entries :=
  List.foldl_ext _ _ _ fun _ id hid => by rw [h id hid]

omit hS in
theorem mem_gather {s : Forwarder κ δ σ} {satisfied : List (FaceId × ℕ)} {entries : List ℕ}
    {d : FaceId × ℕ} :
    d ∈ s.gather satisfied entries ↔
      d ∈ satisfied ∨ d.2 = 0 ∧ ∃ id ∈ entries, d.1 ∈ s.pendingFaces id := by
  induction entries generalizing satisfied with
  | nil => simp [gather]
  | cons id entries ih =>
    have hd : d ∈ (s.pendingFaces id).map (·, 0) ↔ d.2 = 0 ∧ d.1 ∈ s.pendingFaces id := by
      obtain ⟨f, n⟩ := d
      simp [and_comm, eq_comm]
    rw [gather, List.foldl_cons]
    refine ih.trans ?_
    rw [List.mem_union_iff, hd, List.exists_mem_cons_iff]
    tauto

omit hS in
theorem nodup_gather {s : Forwarder κ δ σ} {satisfied : List (FaceId × ℕ)} {entries : List ℕ}
    (hsat : satisfied.Nodup) (h : ∀ id ∈ entries, (s.pendingFaces id).Nodup) :
    (s.gather satisfied entries).Nodup := by
  induction entries generalizing satisfied with
  | nil => exact hsat
  | cons id entries ih =>
    have hid := (h id List.mem_cons_self).map (f := fun f => (f, 0)) fun f f' hf => congrArg Prod.fst hf
    exact ih (hid.union _) fun id' hid' => h id' (List.mem_cons_of_mem _ hid')

/-- **The loop over the matching entries.** Each entry loses the in-records of the downstreams known
after its turn. -/
theorem satisfyEntries_spec (s : Forwarder κ δ σ) (satisfied : List (FaceId × ℕ))
    (unsatisfied : List ((FaceId × ℕ) × ℕ)) {entries : List ℕ} (hnodup : entries.Nodup)
    (hentries : ∀ id ∈ entries, (s.pit.find? id).isSome) :
    ∃ t, s.Silent t ∧
      satisfyEntries E S data ingress s satisfied unsatisfied entries =
        (t, s.gather satisfied entries, unsatisfied) ∧
      (∀ id ∉ entries, t.recordsOf id = s.recordsOf id) ∧
      ∀ l id l', entries = l ++ id :: l' → t.recordsOf id =
        satisfyRecords (s.gather satisfied (l ++ [id])) ingress (s.recordsOf id) := by
  induction entries generalizing s satisfied with
  | nil => exact ⟨s, ⟨rfl, rfl, rfl⟩, rfl, fun _ _ => rfl, fun l id l' h => by simp at h⟩
  | cons id entries ih =>
    obtain ⟨hid, hrest⟩ := List.nodup_cons.mp hnodup
    obtain ⟨u, hsu, hacts, heq, hrecords⟩ :=
      satisfyEntries_cons E hS data ingress s satisfied unsatisfied entries
        (hentries id List.mem_cons_self)
    have hu : ∀ id' ∈ entries, (u.pit.find? id').isSome := fun id' hid' =>
      (hacts.isSome id').trans (hentries id' (List.mem_cons_of_mem _ hid'))
    obtain ⟨t, hut, heq', hother, hturn⟩ := ih u (satisfied ∪ (s.pendingFaces id).map (·, 0)) hrest hu
    -- the other entries still have the records they had
    have hkeep : ∀ id' ∈ entries, u.recordsOf id' = s.recordsOf id' := fun id' hid' => by
      rw [hrecords, if_neg (ne_of_mem_of_not_mem hid' hid).symm]
    have hpending : ∀ id' ∈ entries, u.pendingFaces id' = s.pendingFaces id' := fun id' hid' => by
      rw [pendingFaces, pendingRecords, hkeep id' hid', hsu.now]
      rfl
    refine ⟨t, hsu.trans hut, ?_, fun id' hid' => ?_, fun l id' l' hl => ?_⟩
    · rw [heq, heq', gather_congr _ hpending]
      rfl
    · rw [List.mem_cons, not_or] at hid'
      rw [hother id' hid'.2, hrecords, if_neg (Ne.symm hid'.1)]
    · cases l with
      | nil =>
        obtain ⟨rfl, rfl⟩ := List.cons.inj hl
        rw [hother id hid, hrecords, if_pos rfl]
        rfl
      | cons x l =>
        rw [List.cons_append, List.cons.injEq] at hl
        obtain ⟨rfl, hentries'⟩ := hl
        have hmem : id' ∈ entries := hentries' ▸ by simp
        have hsub : ∀ x ∈ l ++ [id'], u.pendingFaces x = s.pendingFaces x := fun x hx => by
          refine hpending x ?_
          rw [hentries']
          simp only [List.mem_append, List.mem_cons] at hx ⊢
          tauto
        rw [hturn l id' l' hentries', hkeep id' hmem, gather_congr _ hsub]
        rfl

end Satisfy

/-! ## Sending -/

theorem sendDownstreams_eq (s : Forwarder κ δ σ) (data : Data) (ingress : FaceId) (face : Face)
    (endpoint : ℕ) (downstreams : List (FaceId × ℕ)) :
    sendDownstreams data ingress face endpoint s downstreams =
      ((downstreams.filter fun d => ¬ (d = (ingress, endpoint) ∧ face.linkType ≠ .adHoc)).map
        Prod.fst).foldl (fun s f => (s.onOutgoingData data f).1) s := by
  induction downstreams generalizing s with
  | nil => rfl
  | cons d downstreams ih =>
    rw [sendDownstreams, List.filter_cons]
    by_cases hd : d = (ingress, endpoint) ∧ face.linkType ≠ .adHoc
    · rw [if_pos hd, if_neg (by simpa using hd), ih]
    · rw [if_neg hd, if_pos (decide_eq_true hd), ih]
      rfl

def deliverable (s : Forwarder κ δ σ) (data : Data) (egress : FaceId) : Bool :=
  (s.faces egress).any fun face => ! (face.scope == .nonLocal && LOCALHOST.isPrefixOf data.name)

theorem deliverable_iff {s : Forwarder κ δ σ} {data : Data} {egress : FaceId} {face : Face}
    (hface : s.faces egress = some face) : s.deliverable data egress = true ↔
      ¬ (face.scope = .nonLocal ∧ LOCALHOST.isPrefixOf data.name) := by
  rw [deliverable, hface, Option.any_some]
  simp only [Bool.not_eq_true', Bool.and_eq_false_imp, beq_iff_eq, not_and, Bool.not_eq_true]

theorem onOutgoingData_eq (s : Forwarder κ δ σ) (data : Data) (egress : FaceId) :
    (s.onOutgoingData data egress).1 =
      if s.deliverable data egress then s.send (.data egress data) else s := by
  unfold onOutgoingData
  cases hface : s.faces egress with
  | none =>
    rw [deliverable, hface]
    rfl
  | some face =>
    dsimp only
    by_cases hscope : face.scope = .nonLocal ∧ LOCALHOST.isPrefixOf data.name
    · rw [if_pos hscope, if_neg fun hd => (deliverable_iff hface).mp hd hscope]
    · rw [if_neg hscope, if_pos ((deliverable_iff hface).mpr hscope)]

/-- **What the calls of `onOutgoingData` send.** They leave the tables as they are. -/
theorem foldl_onOutgoingData (s : Forwarder κ δ σ) (data : Data) (faces : List FaceId) :
    faces.foldl (fun s f => (s.onOutgoingData data f).1) s =
      { s with sent := s.sent ++ (faces.filter (s.deliverable data)).map (.data · data) } := by
  induction faces generalizing s with
  | nil => simp
  | cons f faces ih =>
    rw [List.foldl_cons, onOutgoingData_eq, List.filter_cons]
    by_cases hf : s.deliverable data f = true
    · rw [if_pos hf, if_pos hf, ih]
      have hsame : (s.send (.data f data)).deliverable data = s.deliverable data := rfl
      rw [hsame, List.map_cons, send]
      simp
    · rw [if_neg hf, if_neg hf, ih]

/-! ## The entries that match -/

def Matches (s : Forwarder κ δ σ) (data : Data) (id : ℕ) : Prop :=
  ∃ e, s.pit.find? id = some e ∧ e.interest.matchesData data = true

/-- **The name tree lists every PIT entry once**, and an entry has one record per face. -/
structure Listed (s : Forwarder κ δ σ) : Prop where
  nodup : s.pitOrder.Nodup
  mem : ∀ id, id ∈ s.pitOrder ↔ (s.pit.find? id).isSome
  next : ∀ id ∈ s.pitOrder, id < s.nextPitEntry
  distinct : ∀ {id e}, s.pit.find? id = some e → e.Distinct

end Forwarder

theorem PitEntry.nodeName_eq_take {e : PitEntry} {data : Data} (h : e.interest.matchesData data = true) :
    ∃ i ≤ min data.name.length 32, e.nodeName = data.name.take i := by
  have hnode : e.nodeName <+: data.name := by
    unfold Interest.matchesData at h
    unfold PitEntry.nodeName
    dsimp only
    rw [Bool.and_eq_true] at h
    obtain ⟨h, -⟩ := h
    split_ifs at h with hlength hpre
    · rw [Bool.and_eq_true, beq_iff_eq] at h
      rw [if_pos h.1, hlength, h.2, Data.fullName, List.take_append_of_le_length (by omega)]
      exact List.take_prefix _ _
    · exact (List.take_prefix _ _).trans (List.isPrefixOf_iff_prefix.mp h)
    · rw [beq_iff_eq.mp h]
      exact List.take_prefix _ _
  refine ⟨e.nodeName.length, le_min hnode.length_le ?_, List.prefix_iff_eq_take.mp hnode⟩
  rw [PitEntry.nodeName, List.length_take]
  omega

theorem Pit.mem_findAllDataMatches {pit : Pit} {order : List ℕ} {data : Data} {id : ℕ} :
    id ∈ pit.findAllDataMatches order data ↔
      id ∈ order ∧ ∃ e, pit.find? id = some e ∧ e.interest.matchesData data = true := by
  unfold Pit.findAllDataMatches
  simp only [List.mem_flatMap, List.mem_reverse, List.mem_range, List.mem_filter, Option.any_eq_true,
    Bool.and_eq_true, beq_iff_eq]
  constructor
  · rintro ⟨i, -, hid, e, he, -, hmatch⟩
    exact ⟨hid, e, he, hmatch⟩
  · rintro ⟨hid, e, he, hmatch⟩
    obtain ⟨i, hi, hnode⟩ := PitEntry.nodeName_eq_take hmatch
    exact ⟨i, Nat.lt_succ_of_le hi, hid, e, he, hnode, hmatch⟩

theorem Pit.nodup_findAllDataMatches {pit : Pit} {order : List ℕ} (h : order.Nodup) (data : Data) :
    (pit.findAllDataMatches order data).Nodup := by
  unfold Pit.findAllDataMatches
  refine List.nodup_flatMap.mpr ⟨fun i _ => h.filter _, ?_⟩
  have hlt : (List.range (min data.name.length 32 + 1)).reverse.Pairwise (· > ·) :=
    List.pairwise_reverse.mpr List.pairwise_lt_range
  refine hlt.imp_of_mem fun {i j} hi hj hij => ?_
  rw [List.mem_reverse, List.mem_range] at hi hj
  -- an entry is on one node only, and the nodes differ in their depths
  intro id hid hid'
  simp only [List.mem_filter, Option.any_eq_true, Bool.and_eq_true, beq_iff_eq] at hid hid'
  obtain ⟨-, e, he, hnode, -⟩ := hid
  obtain ⟨-, e', he', hnode', -⟩ := hid'
  rw [he, Option.some_inj] at he'
  subst he'
  have hlength := congrArg List.length (hnode.symm.trans hnode')
  rw [List.length_take, List.length_take] at hlength
  omega

section Erase

variable {pit : Pit} {order : List ℕ} (hnodup : order.Nodup) {id : ℕ} (hid : id ∈ order)
include hnodup hid

theorem Pit.mem_eraseFromNode {id' : ℕ} :
    id' ∈ pit.eraseFromNode order id ↔ id' ∈ order ∧ id' ≠ id := by
  unfold Pit.eraseFromNode
  dsimp only
  generalize hnode : (order.filter fun id' =>
    (pit.find? id').map PitEntry.nodeName == (pit.find? id).map PitEntry.nodeName) = node
  have hsub : node ⊆ order := hnode ▸ List.filter_sublist.subset
  have hlast : node.getLastD id ∈ order := by
    have hcons : node.getLastD id ∈ id :: node := List.getLastD_mem_cons
    rcases List.mem_cons.mp hcons with h | h
    · rw [h]
      exact hid
    · exact hsub h
  generalize node.getLastD id = last at hlast
  split_ifs with hlid
  · rw [hnodup.mem_erase_iff, and_comm]
  · rw [List.mem_map]
    constructor
    · rintro ⟨x, hx, rfl⟩
      rw [hnodup.mem_erase_iff] at hx
      split_ifs with hxid
      · exact ⟨hlast, hlid⟩
      · exact ⟨hx.2, hxid⟩
    · rintro ⟨hmem, hne⟩
      by_cases hl : id' = last
      · exact ⟨id, hnodup.mem_erase_iff.mpr ⟨Ne.symm hlid, hid⟩, by rw [if_pos rfl, hl]⟩
      · exact ⟨id', hnodup.mem_erase_iff.mpr ⟨hl, hmem⟩, if_neg hne⟩

omit hid in
theorem Pit.nodup_eraseFromNode : (pit.eraseFromNode order id).Nodup := by
  unfold Pit.eraseFromNode
  dsimp only
  generalize List.getLastD _ id = last
  split_ifs with hlid
  · exact hnodup.erase id
  · refine (hnodup.erase last).map_on fun x hx y hy hxy => ?_
    rw [hnodup.mem_erase_iff] at hx hy
    split_ifs at hxy with hxid hyid hyid
    · rw [hxid, hyid]
    · exact absurd hxy.symm hy.1
    · exact absurd hxy hx.1
    · exact hxy

end Erase

namespace Forwarder

variable {κ δ σ : Type} {s t : Forwarder κ δ σ}

theorem Listed.sameTables (h : s.Listed) (hsame : s.SameTables t) : t.Listed where
  nodup := hsame.pitOrder ▸ h.nodup
  mem id := by
    rw [hsame.pitOrder, hsame.pit]
    exact h.mem id
  next id hid := by
    rw [hsame.nextPitEntry]
    exact h.next id (hsame.pitOrder ▸ hid)
  distinct he := h.distinct (hsame.pit ▸ he)

theorem Listed.modifyEntry (h : s.Listed) (id : ℕ) {f : PitEntry → PitEntry}
    (hf : ∀ e : PitEntry, e.Distinct → (f e).Distinct) : (s.modifyEntry id f).Listed := by
  refine { h with mem := fun id' => ?_, distinct := fun {id' e'} he' => ?_ }
  · rw [modifyEntry_isSome]
    exact h.mem id'
  · rw [Forwarder.modifyEntry, OrdMap.find?_modify] at he'
    split_ifs at he'
    · obtain ⟨e, he, rfl⟩ := Option.map_eq_some_iff.mp he'
      exact hf e (h.distinct he)
    · exact h.distinct he'

theorem Listed.acts (h : s.Listed) (hacts : s.Acts t) : t.Listed := by
  induction hacts with
  | refl => exact h
  | other _ hsame ih => exact ih.sameTables hsame
  | edit id _ hf ih => exact ih.modifyEntry id fun e => (hf e).distinct
  | @timer u id duration _ _ ih =>
    have hmodify := ih.modifyEntry id (f := fun e => { e with expiryTimer := some u.nextEvent })
      fun e hd => ⟨hd.inRecords, hd.outRecords⟩
    exact { hmodify with }
  | send packet _ ih => exact { ih with }

theorem Listed.insertPitEntry (h : s.Listed) (interest : Interest) :
    (s.insertPitEntry interest).Listed where
  nodup := by
    refine h.nodup.append (List.nodup_singleton _) (List.disjoint_singleton.mpr fun hmem => ?_)
    exact lt_irrefl _ (h.next _ hmem)
  mem id := by
    change id ∈ s.pitOrder ++ [s.nextPitEntry] ↔ ((s.pit.insert s.nextPitEntry _).find? id).isSome
    rw [List.mem_append, List.mem_singleton, h.mem, OrdMap.find?_insert]
    split_ifs with hid
    · simp [hid]
    · simp [Ne.symm hid]
  next id hid := by
    rcases List.mem_append.mp hid with hid | hid
    · exact Nat.lt_succ_of_lt (h.next id hid)
    · rw [List.mem_singleton.mp hid]
      exact Nat.lt_succ_self _
  distinct {id e} he := by
    change (s.pit.insert s.nextPitEntry _).find? id = some e at he
    rw [OrdMap.find?_insert] at he
    split_ifs at he
    · rw [← Option.some.inj he]
      exact ⟨List.nodup_nil, List.nodup_nil⟩
    · exact h.distinct he

theorem Listed.onInterestFinalize (h : s.Listed) (E : Env κ δ) (id : ℕ) :
    (s.onInterestFinalize E id).Listed := by
  unfold Forwarder.onInterestFinalize
  cases he : s.pit.find? id with
  | none => exact h
  | some e =>
    have hid : id ∈ s.pitOrder := (h.mem id).mpr (by rw [he]; rfl)
    have hsame := insertDeadNonceList_same E s e none
    refine ⟨Pit.nodup_eraseFromNode h.nodup, fun id' => ?_, fun id' hid' => ?_, fun {id' e'} he' => ?_⟩
    · change id' ∈ Pit.eraseFromNode .. ↔ ((s.pit.erase id).find? id').isSome
      rw [Pit.mem_eraseFromNode h.nodup hid, h.mem, OrdMap.find?_erase]
      split_ifs with hne
      · simp [hne]
      · simp [Ne.symm hne]
    · dsimp only
      rw [hsame.nextPitEntry]
      exact h.next id' ((Pit.mem_eraseFromNode h.nodup hid).mp hid').1
    · change (s.pit.erase id).find? id' = some e' at he'
      rw [OrdMap.find?_erase] at he'
      split_ifs at he'
      exact h.distinct he'

theorem Listed.turn (h : s.Listed) (hturn : s.Turn t) : t.Listed := by
  cases hturn with
  | acts hacts => exact h.acts hacts
  | @insert interest u _ _ hsame harms =>
    have hid : (u.pit.find? s.nextPitEntry).isSome := by
      rw [hsame.pit, Forwarder.insertPitEntry, OrdMap.find?_insert_self]
      rfl
    exact ((h.insertPitEntry interest).sameTables hsame).acts (harms.acts hid)
  | @finalize E event hevent =>
    have hfired : ({ s with
        expiryEvents := s.expiryEvents.filter fun ev => ev.id ≠ event.id } : Forwarder κ δ σ).Listed :=
      { h with }
    exact hfired.onInterestFinalize E event.pitEntry
  | elapse duration => exact { h with }
  | faces faces lastFaceId hacts => exact { h.acts hacts with }

theorem reachable_listed {E : Env κ δ} {S : Strategy κ δ σ} (hS : Lawful S) (h : Reachable E S s) :
    s.Listed := by
  refine h.inv hS (fun s hs => ?_) fun _ _ hturn hs => hs.turn hturn
  refine ⟨?_, ?_, ?_, ?_⟩ <;> simp [hs.pit, hs.pitOrder]

/-! ## Incoming Data -/

section Incoming

variable (E : Env κ δ) {S : Strategy κ δ σ} (hS : Lawful S) (data : Data) (ingress : FaceId)
  (face : Face) (endpoint : ℕ)

def served (s : Forwarder κ δ σ) : List FaceId :=
  ((s.gather [] (s.pit.findAllDataMatches s.pitOrder data)).filter fun d =>
    ¬ (d = (ingress, endpoint) ∧ face.linkType ≠ .adHoc)).map Prod.fst

variable (h : s.Listed)

include h

theorem Listed.mem_matches {id : ℕ} : id ∈ s.pit.findAllDataMatches s.pitOrder data ↔ s.Matches data id := by
  rw [Pit.mem_findAllDataMatches, h.mem]
  refine and_iff_right_of_imp ?_
  rintro ⟨e, he, -⟩
  rw [he]
  rfl

theorem Listed.mem_served {f : FaceId} :
    f ∈ s.served data ingress face endpoint ↔
      (∃ id, s.Matches data id ∧ f ∈ s.pendingFaces id) ∧
        ¬ (f = ingress ∧ endpoint = 0 ∧ face.linkType ≠ .adHoc) := by
  have hgather : ∀ n, (f, n) ∈ s.gather [] (s.pit.findAllDataMatches s.pitOrder data) ↔
      n = 0 ∧ ∃ id, s.Matches data id ∧ f ∈ s.pendingFaces id := by
    intro n
    rw [mem_gather]
    simp only [List.not_mem_nil, false_or, h.mem_matches data]
  rw [served, List.mem_map]
  constructor
  · rintro ⟨⟨_, n⟩, hd, rfl⟩
    obtain ⟨hd, hne⟩ := List.mem_filter.mp hd
    obtain ⟨rfl, hpending⟩ := (hgather n).mp hd
    refine ⟨hpending, fun hback => of_decide_eq_true hne ⟨?_, hback.2.2⟩⟩
    exact Prod.ext hback.1 hback.2.1.symm
  · rintro ⟨hpending, hne⟩
    refine ⟨(f, 0), List.mem_filter.mpr ⟨(hgather 0).mpr ⟨rfl, hpending⟩, decide_eq_true ?_⟩, rfl⟩
    rintro ⟨hd, hlink⟩
    exact hne ⟨congrArg Prod.fst hd, (congrArg Prod.snd hd).symm, hlink⟩

theorem Listed.nodup_pendingFaces (id : ℕ) : (s.pendingFaces id).Nodup := by
  unfold pendingFaces pendingRecords recordsOf
  cases he : s.pit.find? id with
  | none => exact List.nodup_nil
  | some e => exact (h.distinct he).inRecords.sublist (List.filter_sublist.map _)

theorem Listed.nodup_served : (s.served data ingress face endpoint).Nodup := by
  have hnodup : (s.gather [] (s.pit.findAllDataMatches s.pitOrder data)).Nodup :=
    nodup_gather List.nodup_nil fun id _ => h.nodup_pendingFaces id
  refine (hnodup.filter _).map_on fun d hd d' hd' hface => Prod.ext hface ?_
  have hzero : ∀ d ∈ s.gather [] (s.pit.findAllDataMatches s.pitOrder data), d.2 = 0 := fun d hd =>
    ((mem_gather.mp hd).resolve_left (List.not_mem_nil)).1
  rw [hzero d (List.mem_of_mem_filter hd), hzero d' (List.mem_of_mem_filter hd')]

include hS in
/-- **Incoming Data with a match**: what is sent, and which records are left. -/
theorem onIncomingData_spec (hscope : ¬ (face.scope = .nonLocal ∧ LOCALHOST.isPrefixOf data.name))
    (hmatch : ∃ id, s.Matches data id) :
    ∃ u, s.Silent u ∧
      s.onIncomingData E S data ingress face endpoint =
        (s.served data ingress face endpoint).foldl (fun s f => (s.onOutgoingData data f).1) u ∧
      ∀ l id l', s.pit.findAllDataMatches s.pitOrder data = l ++ id :: l' →
        (s.onIncomingData E S data ingress face endpoint).recordsOf id =
          satisfyRecords (s.gather [] (l ++ [id])) ingress (s.recordsOf id) := by
  obtain ⟨id₀, hid₀⟩ := hmatch
  have hne : (s.pit.findAllDataMatches s.pitOrder data).isEmpty ≠ true := by
    rw [Ne, List.isEmpty_iff]
    exact List.ne_nil_of_mem ((h.mem_matches data).mpr hid₀)
  have hpresent : ∀ id ∈ s.pit.findAllDataMatches s.pitOrder data,
      (({ s with cs := E.csInsert s.cs data false } : Forwarder κ δ σ).pit.find? id).isSome := by
    intro id hid
    obtain ⟨e, he, -⟩ := (h.mem_matches data).mp hid
    rw [he]
    rfl
  obtain ⟨u, hsilent, heq, -, hrecords⟩ := satisfyEntries_spec E hS data ingress
    { s with cs := E.csInsert s.cs data false } [] [] (Pit.nodup_findAllDataMatches h.nodup data) hpresent
  have hdata : s.onIncomingData E S data ingress face endpoint =
      (s.served data ingress face endpoint).foldl (fun s f => (s.onOutgoingData data f).1) u := by
    unfold onIncomingData
    rw [if_neg hscope]
    dsimp only
    rw [if_neg hne, heq]
    exact sendDownstreams_eq u data ingress face endpoint _
  refine ⟨u, ⟨hsilent.now, hsilent.faces, hsilent.sent⟩, hdata, fun l id l' hl => ?_⟩
  rw [hdata, foldl_onOutgoingData]
  exact hrecords l id l' hl

include hS in
theorem Listed.mem_inFaces_onIncomingData (hscope : ¬ (face.scope = .nonLocal ∧ LOCALHOST.isPrefixOf data.name)) {l l' : List ℕ}
    {id : ℕ} (hl : s.pit.findAllDataMatches s.pitOrder data = l ++ id :: l') (f : FaceId) :
    f ∈ (s.onIncomingData E S data ingress face endpoint).inFaces id ↔
      f ∈ s.inFaces id ∧ ∀ id' ∈ l ++ [id], f ∉ s.pendingFaces id' := by
  have hid : s.Matches data id := (h.mem_matches data).mp (hl ▸ by simp)
  obtain ⟨-, -, -, hrecords⟩ := onIncomingData_spec E hS data ingress face endpoint h hscope ⟨id, hid⟩
  obtain ⟨e, he, -⟩ := hid
  have hnodup : ((s.recordsOf id).1.map InRecord.face).Nodup := by
    rw [recordsOf, he]
    exact (h.distinct he).inRecords
  have hgather : f ∈ (s.gather [] (l ++ [id])).map Prod.fst ↔ ∃ id' ∈ l ++ [id], f ∈ s.pendingFaces id' := by
    simp only [List.mem_map, mem_gather, List.not_mem_nil, false_or, Prod.exists]
    constructor
    · rintro ⟨_, _, ⟨-, hpending⟩, rfl⟩
      exact hpending
    · intro hpending
      exact ⟨f, 0, ⟨rfl, hpending⟩, rfl⟩
  rw [inFaces, hrecords l id l' hl]
  refine (mem_face_deleteInRecords hnodup f).trans (and_congr_right fun _ => ?_)
  rw [hgather]
  push Not
  rfl

include hS in
theorem Listed.not_mem_outFaces_onIncomingData (hscope : ¬ (face.scope = .nonLocal ∧ LOCALHOST.isPrefixOf data.name)) {id : ℕ}
    (hid : s.Matches data id) : ingress ∉ (s.onIncomingData E S data ingress face endpoint).outFaces id := by
  obtain ⟨l, l', hl⟩ := List.append_of_mem ((h.mem_matches data).mpr hid)
  obtain ⟨-, -, -, hrecords⟩ := onIncomingData_spec E hS data ingress face endpoint h hscope ⟨id, hid⟩
  obtain ⟨e, he, -⟩ := hid
  have hnodup : ((s.recordsOf id).2.map OutRecord.face).Nodup := by
    rw [recordsOf, he]
    exact (h.distinct he).outRecords
  rw [outFaces, hrecords l id l' hl]
  change ingress ∉ ((s.recordsOf id).2.eraseP fun o => o.face == ingress).map OutRecord.face
  rw [map_eraseP_beq OutRecord.face, hnodup.mem_erase_iff]
  exact fun hmem => hmem.1 rfl

end Incoming

/-! ## Exact delivery -/

/-- **Delivery of Data to the faces `F`**: once to each face with an unexpired in-record in a matching
entry, but for the face it came from; afterwards no matching entry has an in-record of such a face, nor
an out-record of the face the Data came from. -/
structure Delivered (s t : Forwarder κ δ σ) (data : Data) (ingress : FaceId) (face : Face)
    (F : List FaceId) : Prop where
  nodup : F.Nodup
  mem : ∀ f, f ∈ F ↔ (∃ id, s.Matches data id ∧ f ∈ s.pendingFaces id) ∧
    ¬ (f = ingress ∧ face.linkType ≠ .adHoc)
  calls : ∃ u, s.Silent u ∧ t = F.foldl (fun s f => (s.onOutgoingData data f).1) u
  inRecords : ∀ id, s.Matches data id → ∀ f ∈ F, f ∉ t.inFaces id
  outRecords : ∀ id, s.Matches data id → ingress ∉ t.outFaces id

/-- No entry has an expired in-record of a face that only later entries make a downstream. -/
def NoneStale (s : Forwarder κ δ σ) (data : Data) (ingress : FaceId) (face : Face) : Prop :=
  ∀ l id l', s.pit.findAllDataMatches s.pitOrder data = l ++ id :: l' → ∀ f ∈ s.inFaces id,
    ¬ (f = ingress ∧ face.linkType ≠ .adHoc) → (∃ id' ∈ l', f ∈ s.pendingFaces id') →
      ∃ id' ∈ l ++ [id], f ∈ s.pendingFaces id'

theorem noneStale_of_pending {data : Data} {ingress : FaceId} {face : Face}
    (h : ∀ id ∈ s.pit.findAllDataMatches s.pitOrder data, ∀ f ∈ s.inFaces id, f ∈ s.pendingFaces id) :
    s.NoneStale data ingress face := by
  intro l id l' hl f hf _ _
  refine ⟨id, by simp, h id ?_ f hf⟩
  rw [hl]
  simp

/-- **Delivery is exact just if no expired in-record is left behind.** -/
theorem reachable_delivered_iff {E : Env κ δ} {S : Strategy κ δ σ} (hS : Lawful S)
    (h : Reachable E S s) (data : Data) {ingress : FaceId} {face : Face}
    (hface : s.faces ingress = some face)
    (hscope : ¬ (face.scope = .nonLocal ∧ LOCALHOST.isPrefixOf data.name))
    (hmatch : ∃ id, s.Matches data id) :
    (∃ F, s.Delivered (s.step E S (.data ingress 0 data)) data ingress face F) ↔
      s.NoneStale data ingress face := by
  have hlisted := reachable_listed hS h
  have hstep : s.step E S (.data ingress 0 data) = s.onIncomingData E S data ingress face 0 := by
    rw [step, hface]
  rw [hstep]
  have hmem : ∀ f, f ∈ s.served data ingress face 0 ↔
      (∃ id, s.Matches data id ∧ f ∈ s.pendingFaces id) ∧ ¬ (f = ingress ∧ face.linkType ≠ .adHoc) := by
    intro f
    rw [hlisted.mem_served]
    simp
  constructor
  · rintro ⟨F, hF⟩ l id l' hl f hf hback ⟨id', hid', hpending⟩
    have hmatches : ∀ x ∈ l ++ id :: l', s.Matches data x := fun x hx =>
      (hlisted.mem_matches data).mp (hl ▸ hx)
    have hserved : f ∈ F := (hF.mem f).mpr ⟨⟨id', hmatches id' (by simp [hid']), hpending⟩, hback⟩
    by_contra hnone
    push Not at hnone
    refine hF.inRecords id (hmatches id (by simp)) f hserved ?_
    exact (hlisted.mem_inFaces_onIncomingData E hS data ingress face 0 hscope hl f).mpr ⟨hf, hnone⟩
  · intro hstale
    obtain ⟨u, hsilent, heq, -⟩ := onIncomingData_spec E hS data ingress face 0 hlisted hscope hmatch
    refine ⟨s.served data ingress face 0, hlisted.nodup_served data ingress face 0, hmem,
      ⟨u, hsilent, heq⟩, fun id hid f hf hin => ?_, fun id hid => ?_⟩
    · obtain ⟨l, l', hl⟩ := List.append_of_mem ((hlisted.mem_matches data).mpr hid)
      obtain ⟨hin, hnone⟩ :=
        (hlisted.mem_inFaces_onIncomingData E hS data ingress face 0 hscope hl f).mp hin
      obtain ⟨⟨id', hid', hpending⟩, hback⟩ := (hmem f).mp hf
      -- the entry that makes the face a downstream has not had its turn
      have hlater : id' ∈ l' := by
        have hid' := (hlisted.mem_matches data).mpr hid'
        rw [hl, List.append_cons, List.mem_append] at hid'
        exact hid'.resolve_left fun hl => hnone id' hl hpending
      obtain ⟨id'', hid'', hpending'⟩ := hstale l id l' hl f hin hback ⟨id', hlater, hpending⟩
      exact hnone id'' hid'' hpending'
    · exact hlisted.not_mem_outFaces_onIncomingData E hS data ingress face 0 hscope hid

/-- `ndn:/a/b`. -/
def nameAB : Name := [.generic [97], .generic [98]]

/-- Two faces ask for `/a/b`, the first with a short lifetime. When its in-record has expired the first
face asks for anything under `/a`. -/
def staleRecord : List FwEvent :=
  [.addFace linkFace, .addFace linkFace, .addFace linkFace, .addNextHop [] 258 1,
    .interest 256 { name := nameAB, nonce := 1, lifetime := 1000 }, .interest 257 (bareInterest nameAB 2),
    .elapse (2000 * ms), .interest 256 { name := nameA, nonce := 3, canBePrefix := true }]

/-- The entry for `/a/b` keeps the in-record of the face that is served for `/a`. -/
theorem not_delivered_staleRecord :
    ¬ ∃ F, (bareForwarder.run bareEnv qLearningStrategy staleRecord).Delivered
      (bareForwarder.run bareEnv qLearningStrategy (staleRecord ++ [.data 258 0 { name := nameAB }]))
      { name := nameAB } 258 linkFace F := by
  rintro ⟨F, hF⟩
  have hserved : 256 ∈ F := by
    refine (hF.mem 256).mpr ⟨⟨1, ?_, ?_⟩, by decide⟩
    · exact ⟨_, rfl, by decide⟩
    · decide
  refine hF.inRecords 0 ⟨_, rfl, by decide⟩ 256 hserved ?_
  decide

/-- Without the first Interest for `/a/b` all is in order. -/
def freshRecords : List FwEvent :=
  [.addFace linkFace, .addFace linkFace, .addFace linkFace, .addNextHop [] 258 1,
    .interest 257 (bareInterest nameAB 2), .interest 256 { name := nameA, nonce := 3, canBePrefix := true }]

theorem delivered_freshRecords :
    ∃ F, (bareForwarder.run bareEnv qLearningStrategy freshRecords).Delivered
      ((bareForwarder.run bareEnv qLearningStrategy freshRecords).step bareEnv qLearningStrategy
        (.data 258 0 { name := nameAB })) { name := nameAB } 258 linkFace F := by
  refine (reachable_delivered_iff qLearningStrategy_lawful
    (reachable_run (.init ⟨rfl, rfl, rfl, rfl, rfl, rfl, rfl⟩) _) _ rfl (by decide)
    ⟨0, _, rfl, by decide⟩).mpr ?_
  exact noneStale_of_pending (by decide)

/-! ## No echo -/

def sentSince (s t : Forwarder κ δ σ) : List Sent := t.sent.drop s.sent.length

theorem sentSince_of_append {l : List Sent} (h : t.sent = s.sent ++ l) : s.sentSince t = l := by
  rw [sentSince, h, List.drop_left]

section Sent

variable {E : Env κ δ} {S : Strategy κ δ σ} (hS : Lawful S) (h : s.Listed) (data : Data)
  {ingress : FaceId} {face : Face} (hface : s.faces ingress = some face) (endpoint : ℕ)
include hS h hface

/-- **What incoming Data sends.** -/
theorem Listed.mem_sentSince_data {packet : Sent} :
    packet ∈ s.sentSince (s.step E S (.data ingress endpoint data)) ↔
      ∃ f, packet = .data f data ∧ s.deliverable data ingress = true ∧ s.deliverable data f = true ∧
        f ∈ s.served data ingress face endpoint := by
  rw [step, hface]
  dsimp only
  by_cases hscope : face.scope = .nonLocal ∧ LOCALHOST.isPrefixOf data.name
  · have hsame : s.onIncomingData E S data ingress face endpoint = s := by
      unfold onIncomingData
      rw [if_pos hscope]
    have hnone : s.sentSince s = [] := sentSince_of_append (List.append_nil _).symm
    rw [hsame, hnone, deliverable_iff hface]
    constructor
    · intro hpacket
      cases hpacket
    · rintro ⟨f, -, hno, -⟩
      exact absurd hscope hno
  · by_cases hmatch : ∃ id, s.Matches data id
    · obtain ⟨u, hsilent, heq, -⟩ := onIncomingData_spec E hS data ingress face endpoint h hscope hmatch
      have hdeliverable : u.deliverable data = s.deliverable data := by
        funext f
        rw [deliverable, hsilent.faces]
        rfl
      have hsent : s.sentSince (s.onIncomingData E S data ingress face endpoint) =
          ((s.served data ingress face endpoint).filter (s.deliverable data)).map (.data · data) := by
        refine sentSince_of_append ?_
        rw [heq, foldl_onOutgoingData, hdeliverable, ← hsilent.sent]
      rw [hsent, List.mem_map]
      constructor
      · rintro ⟨f, hf, rfl⟩
        obtain ⟨hserved, hdel⟩ := List.mem_filter.mp hf
        exact ⟨f, rfl, (deliverable_iff hface).mpr hscope, hdel, hserved⟩
      · rintro ⟨f, rfl, -, hdel, hserved⟩
        exact ⟨f, List.mem_filter.mpr ⟨hserved, hdel⟩, rfl⟩
    · have hempty : s.pit.findAllDataMatches s.pitOrder data = [] :=
        List.eq_nil_iff_forall_not_mem.mpr fun id hid => hmatch ⟨id, (h.mem_matches data).mp hid⟩
      have hsent : (s.onIncomingData E S data ingress face endpoint).sent = s.sent ++ [] := by
        unfold onIncomingData onDataUnsolicited
        rw [if_neg hscope, hempty, List.append_nil]
        dsimp only [List.isEmpty_nil]
        rw [if_pos rfl]
        split_ifs <;> rfl
      rw [sentSince_of_append hsent, served, hempty]
      simp [gather]

/-- **No Data goes back to the face it came from**, unless it came in on an endpoint other than 0 and the
face is a downstream. -/
theorem Listed.noEcho_iff (hlink : face.linkType ≠ .adHoc) :
    (∀ d, .data ingress d ∉ s.sentSince (s.step E S (.data ingress endpoint data))) ↔
      ¬ (endpoint ≠ 0 ∧ s.deliverable data ingress = true ∧
        ∃ id, s.Matches data id ∧ ingress ∈ s.pendingFaces id) := by
  rw [← not_exists, not_iff_not]
  constructor
  · rintro ⟨d, hd⟩
    obtain ⟨f, hpacket, hdel, -, hserved⟩ := (h.mem_sentSince_data hS data hface endpoint).mp hd
    obtain ⟨rfl, rfl⟩ := Sent.data.inj hpacket
    obtain ⟨hpending, hback⟩ := (h.mem_served d ingress face endpoint).mp hserved
    exact ⟨fun hzero => hback ⟨rfl, hzero, hlink⟩, hdel, hpending⟩
  · rintro ⟨hendpoint, hdel, hpending⟩
    refine ⟨data, (h.mem_sentSince_data hS data hface endpoint).mpr ⟨ingress, rfl, hdel, hdel, ?_⟩⟩
    exact (h.mem_served data ingress face endpoint).mpr ⟨hpending, fun hback => hendpoint hback.2.1⟩

end Sent

/-- **Echo of Data**: Data that comes in on a face which is not ad hoc goes out of that face again just if
it came in on an endpoint other than 0, does not violate the scope, and the face has an unexpired in-record
in a matching entry. -/
theorem reachable_noEcho_iff {E : Env κ δ} {S : Strategy κ δ σ} (hS : Lawful S) (h : Reachable E S s)
    (data : Data) {ingress : FaceId} {face : Face} (hface : s.faces ingress = some face)
    (hlink : face.linkType ≠ .adHoc) (endpoint : ℕ) :
    (∀ d, .data ingress d ∉ s.sentSince (s.step E S (.data ingress endpoint data))) ↔
      ¬ (endpoint ≠ 0 ∧ ¬ (face.scope = .nonLocal ∧ LOCALHOST.isPrefixOf data.name) ∧
        ∃ id, s.Matches data id ∧ ingress ∈ s.pendingFaces id) := by
  rw [(reachable_listed hS h).noEcho_iff hS data hface endpoint hlink, deliverable_iff hface]

/-- An Interest for `/a`. -/
def pendingA : List FwEvent :=
  [.addFace linkFace, .addFace linkFace, .addNextHop [] 257 1, .interest 256 (bareInterest nameA 1)]

/-- Data from endpoint 1 of the downstream face is sent back. -/
theorem echo_pendingA :
    ¬ ∀ d, .data 256 d ∉ (bareForwarder.run bareEnv qLearningStrategy pendingA).sentSince
      (bareForwarder.run bareEnv qLearningStrategy (pendingA ++ [.data 256 1 { name := nameA }])) := by
  intro h
  exact h { name := nameA } (by decide)

/-- Data from the upstream face is not. -/
theorem noEcho_pendingA :
    linkFace.linkType ≠ .adHoc ∧
      ∀ d, .data 257 d ∉ (bareForwarder.run bareEnv qLearningStrategy pendingA).sentSince
        ((bareForwarder.run bareEnv qLearningStrategy pendingA).step bareEnv qLearningStrategy
          (.data 257 1 { name := nameA })) := by
  have hlink : linkFace.linkType ≠ .adHoc := by decide
  have hreachable : Reachable bareEnv qLearningStrategy
      (bareForwarder.run bareEnv qLearningStrategy pendingA) :=
    reachable_run (.init ⟨rfl, rfl, rfl, rfl, rfl, rfl, rfl⟩) _
  have hnone : ∀ id ∈ (bareForwarder.run bareEnv qLearningStrategy pendingA).pit.findAllDataMatches
      (bareForwarder.run bareEnv qLearningStrategy pendingA).pitOrder { name := nameA },
      257 ∉ (bareForwarder.run bareEnv qLearningStrategy pendingA).pendingFaces id := by
    decide
  have hf : (bareForwarder.run bareEnv qLearningStrategy pendingA).faces 257 = some linkFace := rfl
  refine ⟨hlink,
    (reachable_noEcho_iff qLearningStrategy_lawful hreachable { name := nameA } hf hlink 1).mpr ?_⟩
  rintro ⟨-, -, id, hmatch, hpending⟩
  have hlisted := reachable_listed qLearningStrategy_lawful hreachable
  exact hnone id ((hlisted.mem_matches _).mpr hmatch) hpending

end Forwarder

end Ns3Ndn
