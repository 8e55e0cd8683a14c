import Ns3Ndn.Fw.Delivery

/-!
# What is put on the Dead Nonce List

`insertDeadNonceList` reads `isSatisfied` and `dataFreshnessPeriod` of a PIT entry. `onContentStoreHit` writes
both before it is called. `onIncomingData` writes the first one before the call and the second one after it, so the
call goes by the Data that satisfied the entry before, or by zero.

* `Remembered`: the invariant, the entries know the Data that satisfied them;
* **`run_dueNonces_iff`**: the rule is kept in a run just if the two freshness periods agree in each step.
-/

namespace Ns3Ndn

open OrdLib

/-- The calls of `m_deadNonceList.add` are logged. -/
def Env.recording {κ δ : Type} (E : Env κ δ) : Env κ (δ × List (Name × UInt32)) where
  csFind := E.csFind
  csInsert := E.csInsert
  dnlHas dnl := E.dnlHas dnl.1
  dnlAdd dnl name nonce := (E.dnlAdd dnl.1 name nonce, dnl.2 ++ [(name, nonce)])
  dnlLifetime := E.dnlLifetime
  decideUnsolicited := E.decideUnsolicited
  defaultHopLimit := E.defaultHopLimit

def noncesIf (need : Bool) (interest : Interest) (records : List OutRecord) : List (Name × UInt32) :=
  if need then records.map fun r => (interest.name, r.lastNonce) else []

/-- **The rule**: the nonces of an entry go on the list if nothing satisfied it, or if it asks for fresh Data and
the Data that satisfied it is fresh for less than the lifetime of the list. -/
def needDnl (lifetime : ℕ) (interest : Interest) (satisfiedBy : Option Data) : Bool :=
  satisfiedBy.all fun data => interest.mustBeFresh && decide (data.freshnessPeriod < lifetime)

def PitEntry.marks (e : PitEntry) : Interest × Bool × ℕ := (e.interest, e.isSatisfied, e.dataFreshnessPeriod)

def PitEntry.traits (e : PitEntry) : (Interest × Bool × ℕ) × List OutRecord := (e.marks, e.outRecords)

def memory (satisfiedBy : Option Data) : Bool × ℕ :=
  (satisfiedBy.isSome, (satisfiedBy.map Data.freshnessPeriod).getD 0)

def FwEvent.touchesEntries : FwEvent → Bool
  | .interest .. | .data .. | .expire .. => true
  | _ => false

/-- Two ways to choose from blocks, the second one all or none: they come to the same just if they choose the same
blocks that are not empty. -/
theorem flatMap_ite_eq_iff {α β : Type} {f : α → List β} {p : α → Bool} {k : Bool} {l : List α} :
    (l.flatMap fun a => if p a then f a else []) = (l.flatMap fun a => if k then f a else []) ↔
      ∀ a ∈ l, f a ≠ [] → p a = k := by
  constructor
  · intro h
    cases k with
    | false =>
      have hnil : (l.flatMap fun a => if p a then f a else []) = [] := by
        rw [h]
        simp
      intro a ha hne
      have := List.flatMap_eq_nil_iff.mp hnil a ha
      by_contra hp
      rw [if_pos (by simpa using hp)] at this
      exact hne this
    | true =>
      have hle : ∀ l : List α, (l.flatMap fun a => if p a then f a else []).length ≤ (l.flatMap f).length := by
        intro l
        induction l with
        | nil => simp
        | cons a l ih =>
          rw [List.flatMap_cons, List.flatMap_cons, List.length_append, List.length_append]
          refine Nat.add_le_add ?_ ih
          split_ifs
          · exact le_rfl
          · exact Nat.zero_le _
      change _ = l.flatMap f at h
      induction l with
      | nil => simp
      | cons a l ih =>
        rw [List.flatMap_cons, List.flatMap_cons] at h
        cases hp : p a with
        | true =>
          rw [hp, if_pos rfl, List.append_cancel_left_eq] at h
          exact List.forall_mem_cons.mpr ⟨fun _ => hp, ih h⟩
        | false =>
          -- what is left out cannot be made up for later
          rw [hp, if_neg Bool.false_ne_true, List.nil_append] at h
          have hnil : f a = [] := by
            have hlength := congrArg List.length h
            rw [List.length_append] at hlength
            exact List.eq_nil_of_length_eq_zero (by have := hle l; omega)
          rw [hnil, List.nil_append] at h
          exact List.forall_mem_cons.mpr ⟨fun hne => absurd hnil hne, ih h⟩
  · intro h
    refine List.flatMap_congr fun a ha => ?_
    by_cases hne : f a = []
    · rw [hne, ite_self, ite_self]
    · rw [h a ha hne]

namespace Forwarder

variable {κ δ σ : Type} {s t u : Forwarder κ δ σ}

/-! ## What keeps the marks -/

def view {α : Type} (s : Forwarder κ δ σ) (g : PitEntry → α) (id : ℕ) : Option α := (s.pit.find? id).map g

theorem view_modifyEntry {α : Type} (s : Forwarder κ δ σ) (g : PitEntry → α) (id id' : ℕ)
    (f : PitEntry → PitEntry) :
    (s.modifyEntry id f).view g id' = if id = id' then s.view (fun e => g (f e)) id' else s.view g id' := by
  unfold view modifyEntry
  dsimp only
  rw [OrdMap.find?_modify]
  split_ifs
  · rw [Option.map_map]
    rfl
  · rfl

theorem view_modifyEntry_same {α : Type} (s : Forwarder κ δ σ) {g : PitEntry → α} (id : ℕ) {f : PitEntry → PitEntry}
    (hf : ∀ e, g (f e) = g e) (id' : ℕ) : (s.modifyEntry id f).view g id' = s.view g id' := by
  rw [view_modifyEntry]
  simp only [hf, ite_self]

theorem view_setExpiryTimer {α : Type} (s : Forwarder κ δ σ) {g : PitEntry → α}
    (hg : ∀ (e : PitEntry) expiryTimer, g { e with expiryTimer } = g e) (id duration id' : ℕ) :
    (s.setExpiryTimer id duration).view g id' = s.view g id' :=
  s.view_modifyEntry_same id (fun e => hg e _) id'

theorem view_prod {α β : Type} {g : PitEntry → α} {g' : PitEntry → β} {id : ℕ} (h : t.view g id = s.view g id)
    (h' : t.view g' id = s.view g' id) : t.view (fun e => (g e, g' e)) id = s.view (fun e => (g e, g' e)) id := by
  unfold view at *
  cases hs : s.pit.find? id <;> cases ht : t.pit.find? id <;> simp_all

/-- **Neither the marks nor the Dead Nonce List change.** -/
structure Quiet (s t : Forwarder κ δ σ) : Prop where
  deadNonceList : t.deadNonceList = s.deadNonceList
  marks : ∀ id, t.view PitEntry.marks id = s.view PitEntry.marks id

theorem Quiet.rfl' : s.Quiet s := ⟨rfl, fun _ => rfl⟩

theorem Quiet.trans (h : s.Quiet t) (h' : t.Quiet u) : s.Quiet u :=
  ⟨h'.deadNonceList.trans h.deadNonceList, fun id => (h'.marks id).trans (h.marks id)⟩

section

variable (s : Forwarder κ δ σ)

theorem quiet_modifyEntry (id : ℕ) {f : PitEntry → PitEntry} (hf : ∀ e, (f e).marks = e.marks) : s.Quiet (s.modifyEntry id f) :=
  ⟨rfl, s.view_modifyEntry_same id hf⟩

theorem quiet_setExpiryTimer (id duration : ℕ) : s.Quiet (s.setExpiryTimer id duration) :=
  ⟨rfl, s.view_setExpiryTimer (fun _ _ => rfl) id duration⟩

theorem quiet_onOutgoingInterest (interest : Interest) (egress : FaceId) (face : Face) (id : ℕ) :
    s.Quiet (s.onOutgoingInterest interest egress face id).1 := by
  unfold onOutgoingInterest
  split_ifs
  · exact .rfl'
  · have hrecord := s.quiet_modifyEntry id (f := fun e => e.insertOrUpdateOutRecord s.now egress interest)
      fun e => by
        unfold PitEntry.insertOrUpdateOutRecord
        split_ifs <;> rfl
    exact ⟨hrecord.deadNonceList, hrecord.marks⟩

theorem quiet_onOutgoingData (data : Data) (egress : FaceId) : s.Quiet (s.onOutgoingData data egress).1 := by
  rw [onOutgoingData_eq]
  split_ifs
  · exact ⟨rfl, fun _ => rfl⟩
  · exact .rfl'

end

theorem quiet_sendData {id : ℕ} (hid : ∀ e, s.pit.find? id = some e → e.isSatisfied = true) (data : Data)
    (egress : FaceId) : s.Quiet (s.sendData data egress id) := by
  unfold sendData
  cases he : s.pit.find? id with
  | none => exact .rfl'
  | some e =>
    have hdelete := s.quiet_modifyEntry id (f := fun e => e.deleteInRecord egress) fun _ => rfl
    have hsent := fun data => hdelete.trans (quiet_onOutgoingData (s.modifyEntry id fun e => e.deleteInRecord egress)
      data egress)
    dsimp only
    split
    · exact hsent _
    · split_ifs
      · refine (hsent data).trans ((quiet_setExpiryTimer _ id 0).trans ⟨rfl, fun id' => ?_⟩)
        rw [view_modifyEntry]
        split_ifs with hid'
        · subst hid'
          -- the entry there has the marks of the one that is satisfied
          have hmarks : (((s.modifyEntry id fun e => e.deleteInRecord egress).onOutgoingData data egress).1.setExpiryTimer
              id 0).view PitEntry.marks id = some e.marks := by
            rw [((hsent data).trans (quiet_setExpiryTimer _ id 0)).marks, view, he]
            rfl
          obtain ⟨e', he', heq⟩ := Option.map_eq_some_iff.mp hmarks
          have hsat : e'.isSatisfied = true :=
            (congrArg (fun m => m.2.1) heq).trans (hid e he)
          rw [view, view, he']
          change some (e'.interest, true, e'.dataFreshnessPeriod) = some (e'.interest, e'.isSatisfied, _)
          rw [hsat]
        · rfl
      · exact hsent data

/-- **A strategy that leaves the marks alone**, as those that do not answer Interests on their own. -/
structure KeepsMarks (S : Strategy κ δ σ) : Prop where
  afterReceiveInterest : ∀ (s : Forwarder κ δ σ) interest ingress face id,
    s.Quiet (S.afterReceiveInterest s interest ingress face id)
  beforeSatisfyInterest : ∀ (s : Forwarder κ δ σ) data ingress id,
    s.Quiet (S.beforeSatisfyInterest s data ingress id)
  afterReceiveNack : ∀ (s : Forwarder κ δ σ) nack ingress id, s.Quiet (S.afterReceiveNack s nack ingress id)

theorem quiet_setStrategy (s : Forwarder κ δ σ) (strategy : σ) : s.Quiet { s with strategy } :=
  ⟨rfl, fun _ => rfl⟩

theorem quiet_sendToSelected (s : Forwarder κ δ QLearning) (selected : FaceId) (interest : Interest)
    (ingress : FaceId) (inFace : Face) (id : ℕ) :
    s.Quiet (s.sendToSelected selected interest ingress inFace id) := by
  unfold sendToSelected
  split
  · exact quiet_setExpiryTimer s id 0
  case h_2 outFace _ =>
    have hsend := s.quiet_onOutgoingInterest { interest with pitToken := none } selected outFace id
    dsimp only [sendInterest]
    generalize s.onOutgoingInterest { interest with pitToken := none } selected outFace id = r at hsend
    obtain ⟨t, _ | _⟩ := r
    · exact hsend
    · exact hsend.trans (quiet_setStrategy _ _)

/-- **The Q-learning strategy leaves the marks alone.** -/
theorem qLearningStrategy_keepsMarks : KeepsMarks (qLearningStrategy (κ := κ) (δ := δ)) where
  afterReceiveInterest s interest ingress face id := by
    have htape : s.Quiet s.advanceTape := quiet_setStrategy _ _
    refine htape.trans ?_
    change s.advanceTape.Quiet (s.advanceTape.afterReceiveInterestWith _ interest ingress face id)
    unfold afterReceiveInterestWith
    split
    · exact .rfl'
    · split_ifs
      · exact .rfl'
      · split
        · exact quiet_setExpiryTimer _ id 0
        · exact (quiet_setStrategy _ _).trans (quiet_sendToSelected _ _ _ _ _ id)
  beforeSatisfyInterest s data ingress id := .rfl'
  afterReceiveNack s nack ingress id := quiet_setStrategy _ _

theorem quiet_onIncomingNack {S : Strategy κ δ σ} (hS : KeepsMarks S) (s : Forwarder κ δ σ) (nack : Nack)
    (ingress : FaceId) (face : Face) : s.Quiet (s.onIncomingNack S nack ingress face) := by
  unfold onIncomingNack
  split
  · exact .rfl'
  case h_2 id _ =>
    have hnack := s.quiet_modifyEntry id (f := fun e => { e with
      outRecords := e.outRecords.replaceF fun r =>
        if r.face == ingress then some { r with incomingNack := some nack.reason } else none }) fun _ => rfl
    dsimp only
    refine (hnack.trans ?_).trans (hS.afterReceiveNack _ nack ingress id)
    split
    · exact .rfl'
    · split_ifs
      · exact .rfl'
      · exact quiet_setExpiryTimer _ id 0

theorem quiet_onInterestLoop (s : Forwarder κ δ σ) (interest : Interest) (ingress : FaceId) (face : Face) :
    s.Quiet (s.onInterestLoop interest ingress face) := by
  unfold onInterestLoop
  split_ifs
  · exact .rfl'
  · exact ⟨rfl, fun _ => rfl⟩

theorem quiet_insertInRecord (s : Forwarder κ δ σ) (interest : Interest) (ingress : FaceId) (id : ℕ) :
    s.Quiet (s.insertInRecord interest ingress id) := by
  have hrecord := s.quiet_modifyEntry id (f := fun e => e.insertOrUpdateInRecord s.now ingress interest)
    fun e => by
      unfold PitEntry.insertOrUpdateInRecord
      dsimp only
      split_ifs <;> rfl
  unfold insertInRecord
  dsimp only
  split
  · exact hrecord
  · exact hrecord.trans (quiet_setExpiryTimer _ id _)

theorem quiet_onContentStoreMiss (E : Env κ δ) {S : Strategy κ δ σ} (hS : KeepsMarks S) (s : Forwarder κ δ σ)
    (interest : Interest) (ingress : FaceId) (face : Face) (id : ℕ) :
    s.Quiet (s.onContentStoreMiss E S interest ingress face id) := by
  unfold onContentStoreMiss contentStoreMiss
  dsimp only
  generalize (if 0 < E.defaultHopLimit ∧ interest.hopLimit = none then
    { interest with hopLimit := some E.defaultHopLimit } else interest) = interest'
  have hinsert := s.quiet_insertInRecord interest' ingress id
  cases interest'.nextHopFaceId with
  | none => exact hinsert.trans (hS.afterReceiveInterest _ _ _ _ id)
  | some nextHop =>
    dsimp only
    split
    · exact hinsert
    · exact hinsert.trans (quiet_onOutgoingInterest ..)

theorem quiet_removeFace (s : Forwarder κ δ σ) (face : FaceId) : s.Quiet (s.removeFace face) := by
  refine ⟨rfl, fun id => ?_⟩
  have hfold : ∀ (l : List (ℕ × PitEntry)) (s : Forwarder κ δ σ),
      s.Quiet { s with pit := l.foldl (fun pit b =>
        pit.modify b.1 fun e => (e.deleteInRecord face).deleteOutRecord face) s.pit } := by
    intro l
    induction l with
    | nil => exact fun _ => ⟨rfl, fun _ => rfl⟩
    | cons b l ih =>
      intro s
      have hb := s.quiet_modifyEntry b.1 (f := fun e => (e.deleteInRecord face).deleteOutRecord face) fun _ => rfl
      exact ⟨rfl, (hb.trans (ih _)).marks⟩
  exact (hfold s.pit.toList s).marks id

/-! ## Entries that are satisfied -/

def remark (satisfiedBy : Option Data) (marks : Interest × Bool × ℕ) : Interest × Bool × ℕ :=
  (marks.1, satisfiedBy.elim marks.2 fun data => (true, data.freshnessPeriod))

/-- **Some entries are satisfied by Data**, and the others keep their marks. -/
def Remarks (o : ℕ → Option Data) (s t : Forwarder κ δ σ) : Prop :=
  ∀ id, t.view PitEntry.marks id = (s.view PitEntry.marks id).map (remark (o id))

theorem Quiet.remarks (h : s.Quiet t) : Remarks (fun _ => none) s t := by
  intro id
  rw [h.marks]
  exact (Option.map_id' ..).symm

theorem remarks_onContentStoreHit {S : Strategy κ δ σ} (hS : KeepsMarks S) (s : Forwarder κ δ σ)
    (interest : Interest) (ingress : FaceId) (id : ℕ) (data : Data) :
    (s.onContentStoreHit S interest ingress id data).deadNonceList = s.deadNonceList ∧
      Remarks (fun id' => if id = id' then some data else none) s
        (s.onContentStoreHit S interest ingress id data) := by
  unfold onContentStoreHit
  dsimp only
  generalize hu : (s.modifyEntry id fun e => { e with isSatisfied := true, dataFreshnessPeriod := data.freshnessPeriod }) = u
  have hview : ∀ id', u.view PitEntry.marks id' =
      (s.view PitEntry.marks id').map (remark (if id = id' then some data else none)) := by
    intro id'
    rw [← hu, view_modifyEntry]
    unfold view
    split_ifs
    · rw [Option.map_map]
      rfl
    · exact (Option.map_id' ..).symm
  have hbefore := (u.quiet_setExpiryTimer id 0).trans
    (hS.beforeSatisfyInterest _ { data with pitToken := interest.pitToken } 254 id)
  generalize S.beforeSatisfyInterest _ _ 254 id = v at hbefore
  have hv : ∀ e, v.pit.find? id = some e → e.isSatisfied = true := by
    intro e he
    have hmarks := (hbefore.marks id).trans (hview id)
    rw [view, he, if_pos rfl] at hmarks
    obtain ⟨m, -, hm⟩ := Option.map_eq_some_iff.mp hmarks.symm
    exact congrArg (fun m => m.2.1) hm.symm
  have hsent := hbefore.trans (quiet_sendData hv { data with pitToken := interest.pitToken } ingress)
  refine ⟨hsent.deadNonceList.trans (by rw [← hu]; rfl), fun id' => ?_⟩
  rw [hsent.marks, hview]

/-! ## The loop over the matching entries -/

theorem insertDeadNonceList_log (E : Env κ δ) (s : Forwarder κ (δ × List (Name × UInt32)) σ) (e : PitEntry)
    (upstream : Option FaceId) :
    (s.insertDeadNonceList E.recording e upstream).deadNonceList.2 = s.deadNonceList.2 ++
      noncesIf (! e.isSatisfied || e.interest.mustBeFresh && decide (e.dataFreshnessPeriod < E.dnlLifetime))
        e.interest (match upstream with
          | none => e.outRecords
          | some face => (e.getOutRecord face).toList) := by
  have hfold : ∀ (records : List OutRecord) (dnl : δ × List (Name × UInt32)),
      (records.foldl (fun dnl r => E.recording.dnlAdd dnl e.interest.name r.lastNonce) dnl).2 =
        dnl.2 ++ records.map fun r => (e.interest.name, r.lastNonce) := by
    intro records
    induction records with
    | nil => simp
    | cons r records ih =>
      intro dnl
      rw [List.foldl_cons, ih, List.map_cons, List.append_cons]
      rfl
  have hlifetime : E.recording.dnlLifetime = E.dnlLifetime := rfl
  unfold insertDeadNonceList noncesIf
  dsimp only
  rw [hlifetime]
  split_ifs
  · exact hfold _ _
  · exact (List.append_nil _).symm

/-- The nonces that the loop of `onIncomingData` logs for an entry: with the freshness period that the entry has
before its turn. -/
def turnNonces (E : Env κ δ) (ingress : FaceId) (s : Forwarder κ (δ × List (Name × UInt32)) σ) (id : ℕ) :
    List (Name × UInt32) :=
  match s.pit.find? id with
  | none => []
  | some e =>
    noncesIf (e.interest.mustBeFresh && decide (e.dataFreshnessPeriod < E.dnlLifetime)) e.interest
      (e.getOutRecord ingress).toList

theorem turnNonces_congr {E : Env κ δ} {ingress : FaceId} {s t : Forwarder κ (δ × List (Name × UInt32)) σ} {id : ℕ}
    (h : t.view PitEntry.traits id = s.view PitEntry.traits id) :
    turnNonces E ingress t id = turnNonces E ingress s id := by
  have hview : ∀ s : Forwarder κ (δ × List (Name × UInt32)) σ, turnNonces E ingress s id =
      ((s.view PitEntry.traits id).map fun r =>
        noncesIf (r.1.1.mustBeFresh && decide (r.1.2.2 < E.dnlLifetime)) r.1.1
          (r.2.find? (·.face == ingress)).toList).getD [] := by
    intro s
    unfold turnNonces view
    cases s.pit.find? id <;> rfl
  rw [hview, hview, h]

section Satisfy

variable (E : Env κ δ) {S : Strategy κ (δ × List (Name × UInt32)) σ} (hS : Lawful S) (hK : KeepsMarks S)
  (data : Data) (ingress : FaceId)
include hS hK

/-- **One turn of the loop**: the nonces go by the marks from before. -/
theorem satisfyEntries_cons_log (s : Forwarder κ (δ × List (Name × UInt32)) σ) (satisfied : List (FaceId × ℕ))
    (unsatisfied : List ((FaceId × ℕ) × ℕ)) {id : ℕ} (entries : List ℕ) (hid : (s.pit.find? id).isSome) :
    ∃ t satisfied', satisfyEntries E.recording S data ingress s satisfied unsatisfied (id :: entries) =
        satisfyEntries E.recording S data ingress t satisfied' unsatisfied entries ∧
      t.deadNonceList.2 = s.deadNonceList.2 ++ turnNonces E ingress s id ∧
      Remarks (fun id' => if id = id' then some data else none) s t ∧
      ∀ id', id ≠ id' → t.view PitEntry.traits id' = s.view PitEntry.traits id' := by
  obtain ⟨e, he⟩ := Option.isSome_iff_exists.mp hid
  rw [satisfyEntries, he]
  dsimp only [satisfyInterest, List.isEmpty_nil]
  rw [List.map_nil, List.append_nil, if_pos rfl]
  obtain ⟨-, hsame⟩ := hS.beforeSatisfyInterest s data ingress id hid
  have hmarks := hK.beforeSatisfyInterest s data ingress id
  generalize S.beforeSatisfyInterest s data ingress id = b at hsame hmarks
  have hb : ∀ id', b.view PitEntry.traits id' = s.view PitEntry.traits id' := fun id' =>
    view_prod (hmarks.marks id') (by
      have := congrArg (Option.map fun r : Interest × List InRecord × List OutRecord => r.2.2) (hsame.records id')
      rwa [Option.map_map, Option.map_map] at this)
  have hset : ∀ id', (b.setExpiryTimer id 0).view PitEntry.traits id' = s.view PitEntry.traits id' := fun id' =>
    (b.view_setExpiryTimer (fun _ _ => rfl) id 0 id').trans (hb id')
  generalize hc : (b.setExpiryTimer id 0).modifyEntry id (fun e => { e with isSatisfied := true }) = c
  have hcview : ∀ id', c.view PitEntry.traits id' = if id = id' then
      (s.view PitEntry.traits id').map (fun r => ((r.1.1, true, r.1.2.2), r.2)) else s.view PitEntry.traits id' := by
    intro id'
    rw [← hc, view_modifyEntry, ← hset]
    unfold view
    rw [Option.map_map]
    rfl
  -- the entry as it is when its nonces are inserted
  have hcid := hcview id
  rw [if_pos rfl, view, view, he] at hcid
  obtain ⟨e', he', heq⟩ := Option.map_eq_some_iff.mp hcid
  rw [PitEntry.traits, PitEntry.marks, PitEntry.traits, PitEntry.marks] at heq
  simp only [Prod.mk.injEq] at heq
  obtain ⟨⟨hinterest, hsat, hfresh⟩, hout⟩ := heq
  rw [he']
  refine ⟨_, _, rfl, ?_, fun id' => ?_, fun id' hne => ?_⟩
  · change (c.insertDeadNonceList E.recording e' (some ingress)).deadNonceList.2 = _
    rw [insertDeadNonceList_log, turnNonces, he, hsat, hfresh, hinterest]
    dsimp only [PitEntry.getOutRecord]
    rw [hout, ← hc]
    exact congrArg (· ++ _) (congrArg Prod.snd hmarks.deadNonceList)
  · have hdnl := insertDeadNonceList_same E.recording c e' (some ingress)
    have hfold : ∀ (satisfied : List (FaceId × ℕ)) (e : PitEntry),
        (satisfied.foldl (fun e d => e.deleteInRecord d.1) e).marks = e.marks := by
      intro satisfied
      induction satisfied with
      | nil => exact fun _ => rfl
      | cons d satisfied ih => exact fun e => ih (e.deleteInRecord d.1)
    rw [view_modifyEntry, view, view, hdnl.pit]
    dsimp only
    split_ifs with hid'
    · subst hid'
      rw [he', view, he]
      refine congrArg some ((hfold _ { e' with dataFreshnessPeriod := data.freshnessPeriod }).trans ?_)
      rw [PitEntry.marks, hinterest, hsat]
      rfl
    · have hmap := congrArg (Option.map Prod.fst) ((hcview id').trans (if_neg hid'))
      rw [view, view, Option.map_map, Option.map_map] at hmap
      exact hmap.trans (Option.map_id' ..).symm
  · have hdnl := insertDeadNonceList_same E.recording c e' (some ingress)
    rw [view_modifyEntry, if_neg hne, view, hdnl.pit]
    exact (hcview id').trans (if_neg hne)

theorem satisfyEntries_log (s : Forwarder κ (δ × List (Name × UInt32)) σ) (satisfied : List (FaceId × ℕ))
    (unsatisfied : List ((FaceId × ℕ) × ℕ)) {entries : List ℕ} (hnodup : entries.Nodup)
    (hentries : ∀ id ∈ entries, (s.pit.find? id).isSome) :
    ∃ t satisfied', satisfyEntries E.recording S data ingress s satisfied unsatisfied entries =
        (t, satisfied', unsatisfied) ∧
      t.deadNonceList.2 = s.deadNonceList.2 ++ entries.flatMap (turnNonces E ingress s) ∧
      Remarks (fun id => if id ∈ entries then some data else none) s t := by
  induction entries generalizing s satisfied with
  | nil => exact ⟨s, satisfied, rfl, (List.append_nil _).symm, Quiet.rfl'.remarks⟩
  | cons id entries ih =>
    obtain ⟨hid, hrest⟩ := List.nodup_cons.mp hnodup
    obtain ⟨u, satisfied', heq, hlog, hmarks, htraits⟩ :=
      satisfyEntries_cons_log E hS hK data ingress s satisfied unsatisfied entries (hentries id List.mem_cons_self)
    have hsome : ∀ id', (u.pit.find? id').isSome = (s.pit.find? id').isSome := fun id' => by
      have := congrArg Option.isSome (hmarks id')
      simpa [view] using this
    obtain ⟨t, satisfied'', heq', hlog', hmarks'⟩ := ih u satisfied' hrest fun id' hid' =>
      (hsome id').trans (hentries id' (List.mem_cons_of_mem _ hid'))
    refine ⟨t, satisfied'', heq.trans heq', ?_, fun id' => ?_⟩
    · rw [hlog', hlog, List.append_assoc, List.flatMap_cons]
      have hothers : entries.flatMap (turnNonces E ingress u) = entries.flatMap (turnNonces E ingress s) :=
        List.flatMap_congr fun id' hid' => turnNonces_congr (htraits id' (ne_of_mem_of_not_mem hid' hid).symm)
      rw [hothers]
    · rw [hmarks', hmarks, Option.map_map]
      refine congrArg (Option.map · _) (funext fun m => ?_)
      by_cases heq : id = id'
      · subst heq
        simp [hid, remark]
      · by_cases hmem : id' ∈ entries <;> simp [heq, Ne.symm heq, hmem, remark]

end Satisfy

/-! ## The rule -/

def dataMatches (s : Forwarder κ δ σ) (ingress : FaceId) (data : Data) : List ℕ :=
  match s.faces ingress with
  | none => []
  | some face =>
    if face.scope = .nonLocal ∧ LOCALHOST.isPrefixOf data.name then []
    else s.pit.findAllDataMatches s.pitOrder data

def finalizing (s : Forwarder κ δ σ) (event : ℕ) : Option (ℕ × PitEntry) :=
  match s.expiryEvents.find? fun ev => ev.id == event with
  | none => none
  | some ev => if ev.due ≤ s.now then (s.pit.find? ev.pitEntry).map (ev.pitEntry, ·) else none

def satisfyingData (E : Env κ δ) (s : Forwarder κ δ σ) (id : ℕ) : FwEvent → Option Data
  | .data ingress _ data => if id ∈ s.dataMatches ingress data then some data else none
  | .interest ingress interest =>
    match s.faces ingress with
    | none => none
    | some face =>
      match s.incomingInterest E interest ingress face with
      | .hit _ _ id' data => if id' = id then some data else none
      | _ => none
  | _ => none

/-- **The Data that satisfied an entry last**, after an event; `h` tells it for the state before. -/
def satisfiedBy (E : Env κ δ) (s : Forwarder κ δ σ) (h : ℕ → Option Data) (e : FwEvent) (id : ℕ) : Option Data :=
  (s.satisfyingData E id e).or (h id)

/-- A property of each step of a run, with the Data that satisfied the entries before it. -/
def EachStep (E : Env κ δ) (S : Strategy κ δ σ)
    (P : (h : ℕ → Option Data) → Forwarder κ δ σ → FwEvent → Prop) :
    Forwarder κ δ σ → (h : ℕ → Option Data) → List FwEvent → Prop
  | _, _, [] => True
  | s, h, e :: es => P h s e ∧ EachStep E S P (s.step E S e) (s.satisfiedBy E h e) es

/-- **The nonces that an event is to put on the Dead Nonce List.** Incoming Data: the nonce of the out-record of
its face, for each entry it satisfies, with the state in which the entry is left and with its own freshness
period. The expiry of an entry: the nonces of all out-records that are left, with the Data that satisfied it. -/
def dueNonces (E : Env κ δ) (S : Strategy κ (δ × List (Name × UInt32)) σ) (h : ℕ → Option Data)
    (s : Forwarder κ (δ × List (Name × UInt32)) σ) : FwEvent → List (Name × UInt32)
  | .data ingress endpoint data =>
    (s.dataMatches ingress data).flatMap fun id =>
      match s.pit.find? id with
      | none => []
      | some e =>
        let isSatisfied := ((s.step E.recording S (.data ingress endpoint data)).pit.find? id).any PitEntry.isSatisfied
        noncesIf (needDnl E.dnlLifetime e.interest (if isSatisfied then some data else none)) e.interest
          (e.getOutRecord ingress).toList
  | .expire event =>
    match s.finalizing event with
    | none => []
    | some (id, e) => noncesIf (needDnl E.dnlLifetime e.interest (h id)) e.interest e.outRecords
  | _ => []

/-- **An event logs what is due**, and the entries that are satisfied are those that Data satisfied. -/
def LogsDue (E : Env κ δ) (S : Strategy κ (δ × List (Name × UInt32)) σ) (h : ℕ → Option Data)
    (s : Forwarder κ (δ × List (Name × UInt32)) σ) (e : FwEvent) : Prop :=
  (∀ id e, s.pit.find? id = some e → e.isSatisfied = (h id).isSome) ∧
    (s.step E.recording S e).deadNonceList.2 = s.deadNonceList.2 ++ dueNonces E S h s e

/-- The entries that ask for fresh Data, and that incoming Data satisfies, hold a freshness period that is on the
same side of the lifetime of the Dead Nonce List. -/
def FreshnessAgrees (lifetime : ℕ) (s : Forwarder κ δ σ) : FwEvent → Prop
  | .data ingress _ data => ∀ id ∈ s.dataMatches ingress data, ∀ e, s.pit.find? id = some e →
      e.interest.mustBeFresh = true → (e.getOutRecord ingress).isSome →
        (e.dataFreshnessPeriod < lifetime ↔ data.freshnessPeriod < lifetime)
  | _ => True

/-! ## What an event does -/

section Step

variable (E : Env κ δ) {S : Strategy κ (δ × List (Name × UInt32)) σ} (hS : Lawful S) (hK : KeepsMarks S)

include hS hK in
/-- **What incoming Data logs**, and which entries it satisfies. -/
theorem step_data_log {s : Forwarder κ (δ × List (Name × UInt32)) σ} (h : s.Listed) (ingress : FaceId)
    (endpoint : ℕ) (data : Data) :
    (s.step E.recording S (.data ingress endpoint data)).deadNonceList.2 =
        s.deadNonceList.2 ++ (s.dataMatches ingress data).flatMap (turnNonces E ingress s) ∧
      Remarks (fun id => if id ∈ s.dataMatches ingress data then some data else none) s
        (s.step E.recording S (.data ingress endpoint data)) := by
  have hnone : s.dataMatches ingress data = [] → ∀ t : Forwarder κ (δ × List (Name × UInt32)) σ, s.Quiet t →
      t.deadNonceList.2 = s.deadNonceList.2 ++ (s.dataMatches ingress data).flatMap (turnNonces E ingress s) ∧
        Remarks (fun id => if id ∈ s.dataMatches ingress data then some data else none) s t := by
    intro hnil t ht
    rw [hnil, ht.deadNonceList]
    exact ⟨(List.append_nil _).symm, ht.remarks⟩
  rw [step]
  cases hface : s.faces ingress with
  | none => exact hnone (by rw [dataMatches, hface]) s .rfl'
  | some face =>
    dsimp only
    unfold onIncomingData
    by_cases hscope : face.scope = .nonLocal ∧ LOCALHOST.isPrefixOf data.name
    · rw [if_pos hscope]
      exact hnone (by rw [dataMatches, hface]; exact if_pos hscope) s .rfl'
    · have hmatches : s.dataMatches ingress data = s.pit.findAllDataMatches s.pitOrder data := by
        rw [dataMatches, hface]
        exact if_neg hscope
      rw [if_neg hscope]
      dsimp only
      by_cases hempty : (s.pit.findAllDataMatches s.pitOrder data).isEmpty = true
      · rw [if_pos hempty]
        refine hnone (hmatches.trans (List.isEmpty_iff.mp hempty)) _ ?_
        unfold onDataUnsolicited
        split_ifs
        · exact ⟨rfl, fun _ => rfl⟩
        · exact .rfl'
      · rw [if_neg hempty, hmatches]
        have hpresent : ∀ id ∈ s.pit.findAllDataMatches s.pitOrder data,
            (({ s with cs := E.csInsert s.cs data false } : Forwarder κ _ σ).pit.find? id).isSome := by
          intro id hid
          obtain ⟨e, he, -⟩ := (h.mem_matches data).mp hid
          rw [he]
          rfl
        obtain ⟨t, satisfied, heq, hlog, hmarks⟩ := satisfyEntries_log E hS hK data ingress
          { s with cs := E.csInsert s.cs data false } [] [] (Pit.nodup_findAllDataMatches h.nodup data) hpresent
        have hdata : satisfyEntries E.recording S data ingress { s with cs := E.recording.csInsert s.cs data false }
            [] [] (s.pit.findAllDataMatches s.pitOrder data) = (t, satisfied, []) := heq
        rw [hdata]
        dsimp only [closeUnsatisfied]
        rw [sendDownstreams_eq, foldl_onOutgoingData]
        exact ⟨hlog, hmarks⟩

def InsertsAtMost (s u : Forwarder κ δ σ) : Prop := u = s ∨ ∃ interest, u = s.insertPitEntry interest

/-- An Interest on its way to the Content Store, which has Data only for an entry of the table. -/
theorem incomingInterest_quiet (E : Env κ δ) (s : Forwarder κ δ σ) (interest : Interest) (ingress : FaceId)
    (face : Face) :
    ∃ u, s.InsertsAtMost u ∧ u.Quiet (s.incomingInterest E interest ingress face).state ∧
      ∀ v interest' id data, s.incomingInterest E interest ingress face = .hit v interest' id data →
        (v.pit.find? id).isSome := by
  unfold incomingInterest
  by_cases hhop : interest.hopLimit = some 0
  · rw [if_pos hhop]
    exact ⟨s, Or.inl rfl, .rfl', fun _ _ _ _ h => by cases h⟩
  rw [if_neg hhop]
  dsimp only
  split_ifs
  · exact ⟨s, Or.inl rfl, .rfl', fun _ _ _ _ h => by cases h⟩
  · exact ⟨s, Or.inl rfl, quiet_onInterestLoop .., fun _ _ _ _ h => by cases h⟩
  unfold lookupTables
  generalize s.stripForwardingHint _ = interest'
  have hinsert : ∃ u id e, s.InsertsAtMost u ∧ (u.pit.find? id).isSome ∧ s.pitInsert interest' = (u, id, e) := by
    rcases s.pitInsert_cases interest' with ⟨id, e, he, heq⟩ | ⟨-, heq⟩
    · exact ⟨s, id, e, Or.inl rfl, by rw [he]; rfl, heq⟩
    · refine ⟨_, _, _, Or.inr ⟨interest', rfl⟩, ?_, heq⟩
      rw [insertPitEntry, OrdMap.find?_insert_self]
      rfl
  obtain ⟨u, id, e, hu, hid, heq⟩ := hinsert
  rw [heq]
  dsimp only
  split_ifs
  · exact ⟨u, hu, quiet_onInterestLoop .., fun _ _ _ _ h => by cases h⟩
  · split
    · refine ⟨u, hu, ⟨rfl, fun _ => rfl⟩, fun v _ id' _ h => ?_⟩
      obtain ⟨rfl, -, rfl, -⟩ := Incoming.hit.inj h
      exact hid
    · exact ⟨u, hu, ⟨rfl, fun _ => rfl⟩, fun _ _ _ _ h => by cases h⟩
  · exact ⟨u, hu, .rfl', fun _ _ _ _ h => by cases h⟩

/-- **An Interest logs nothing**, and satisfies the entry for which the Content Store has Data. -/
theorem step_interest_marks (E : Env κ δ) {S : Strategy κ δ σ} (hK : KeepsMarks S) (s : Forwarder κ δ σ)
    (ingress : FaceId) (interest : Interest) :
    ∃ u, s.InsertsAtMost u ∧ (s.step E S (.interest ingress interest)).deadNonceList = s.deadNonceList ∧
      Remarks (fun id => s.satisfyingData E id (.interest ingress interest)) u
        (s.step E S (.interest ingress interest)) ∧
      ∀ id, (s.satisfyingData E id (.interest ingress interest)).isSome → (u.pit.find? id).isSome := by
  rw [step]
  simp only [satisfyingData]
  cases hface : s.faces ingress with
  | none => exact ⟨s, Or.inl rfl, rfl, Quiet.rfl'.remarks, fun _ h => by cases h⟩
  | some face =>
    obtain ⟨u, hu, hquiet, hhit⟩ := s.incomingInterest_quiet E interest ingress face
    have hdnl : u.deadNonceList = s.deadNonceList := by
      rcases hu with rfl | ⟨_, rfl⟩ <;> rfl
    dsimp only
    unfold onIncomingInterest
    cases hcase : s.incomingInterest E interest ingress face with
    | done v =>
      rw [hcase] at hquiet
      exact ⟨u, hu, hquiet.deadNonceList.trans hdnl, hquiet.remarks, fun _ h => by cases h⟩
    | miss v interest' id =>
      rw [hcase] at hquiet
      have hmiss := hquiet.trans (v.quiet_onContentStoreMiss E hK interest' ingress face id)
      exact ⟨u, hu, hmiss.deadNonceList.trans hdnl, hmiss.remarks, fun _ h => by cases h⟩
    | hit v interest' id data =>
      rw [hcase] at hquiet
      change u.Quiet v at hquiet
      obtain ⟨hlog, hmarks⟩ := remarks_onContentStoreHit hK v interest' ingress id data
      refine ⟨u, hu, (hlog.trans hquiet.deadNonceList).trans hdnl, fun id' => ?_, fun id' h => ?_⟩
      · rw [hmarks, hquiet.marks]
      · have hid : id = id' := by
          by_contra hne
          dsimp only at h
          rw [if_neg hne] at h
          cases h
        subst hid
        have hv := hhit v interest' id data hcase
        have hview := congrArg Option.isSome (hquiet.marks id)
        rw [view, view, Option.isSome_map, Option.isSome_map] at hview
        exact hview.symm.trans hv

end Step

theorem Acts.nextPitEntry_eq (h : s.Acts t) : t.nextPitEntry = s.nextPitEntry := by
  induction h with
  | refl => rfl
  | other _ hsame ih => rw [hsame.nextPitEntry, ih]
  | edit id _ _ ih => exact ih
  | timer duration _ _ ih => exact ih
  | send packet _ ih => exact ih

theorem Turn.le_nextPitEntry (h : s.Turn t) : s.nextPitEntry ≤ t.nextPitEntry := by
  cases h with
  | acts hacts => exact hacts.nextPitEntry_eq.ge
  | @insert interest u _ _ hsame harms =>
    have hid : (u.pit.find? s.nextPitEntry).isSome := by
      rw [hsame.pit, insertPitEntry, OrdMap.find?_insert_self]
      rfl
    rw [(harms.acts hid).nextPitEntry_eq, hsame.nextPitEntry]
    exact Nat.le_succ _
  | @finalize E event hevent =>
    unfold onInterestFinalize
    split
    · exact le_rfl
    case h_2 e _ =>
      exact (insertDeadNonceList_same E { s with
        expiryEvents := s.expiryEvents.filter fun ev => ev.id ≠ event.id } e none).nextPitEntry.ge
  | elapse duration => exact le_rfl
  | faces faces lastFaceId hacts => exact hacts.nextPitEntry_eq.ge

/-- What an event that finalizes an entry leaves of the others, and what it logs. -/
theorem step_expire_log (E : Env κ δ) (S : Strategy κ (δ × List (Name × UInt32)) σ)
    (s : Forwarder κ (δ × List (Name × UInt32)) σ) (event : ℕ) :
    ((s.step E.recording S (.expire event)).deadNonceList.2 = s.deadNonceList.2 ++
      match s.finalizing event with
      | none => []
      | some (_, e) =>
        noncesIf (! e.isSatisfied || e.interest.mustBeFresh && decide (e.dataFreshnessPeriod < E.dnlLifetime))
          e.interest e.outRecords) ∧
      ∀ id e, (s.step E.recording S (.expire event)).pit.find? id = some e → s.pit.find? id = some e := by
  rw [step, finalizing]
  cases s.expiryEvents.find? fun ev => ev.id == event with
  | none => exact ⟨(List.append_nil _).symm, fun _ _ h => h⟩
  | some ev =>
    dsimp only
    by_cases hdue : ev.due ≤ s.now
    · rw [if_pos hdue, if_pos hdue]
      unfold onInterestFinalize
      dsimp only
      cases he : s.pit.find? ev.pitEntry with
      | none => exact ⟨(List.append_nil _).symm, fun _ _ h => h⟩
      | some e =>
        refine ⟨insertDeadNonceList_log E _ e none, fun id e' he' => ?_⟩
        dsimp only at he'
        rw [OrdMap.find?_erase] at he'
        split_ifs at he'
        exact he'
    · rw [if_neg hdue, if_neg hdue]
      exact ⟨(List.append_nil _).symm, fun _ _ h => h⟩

/-- The other events neither log nor satisfy anything. -/
theorem step_quiet (E : Env κ δ) {S : Strategy κ δ σ} (hK : KeepsMarks S) (s : Forwarder κ δ σ) (e : FwEvent)
    (he : e.touchesEntries = false) : s.Quiet (s.step E S e) := by
  cases e with
  | interest ingress interest => cases he
  | data ingress endpoint data => cases he
  | expire event => cases he
  | nack ingress nack =>
    rw [step]
    split
    · exact .rfl'
    · exact quiet_onIncomingNack hK ..
  | elapse duration => exact ⟨rfl, fun _ => rfl⟩
  | addFace face => exact ⟨rfl, fun _ => rfl⟩
  | removeFace face => exact s.quiet_removeFace face
  | setState face state => exact ⟨rfl, fun _ => rfl⟩
  | addNextHop prefixName face cost =>
    rw [step, addNextHop]
    split_ifs
    · exact .rfl'
    · split
      · exact .rfl'
      · exact ⟨rfl, fun _ => rfl⟩
  | removeNextHop prefixName face =>
    rw [step]
    split_ifs
    · exact ⟨rfl, fun _ => rfl⟩
    · exact .rfl'

/-! ## The invariant -/

/-- **The entries know the Data that satisfied them**, and `h` tells nothing of entries to come. -/
structure Remembered (h : ℕ → Option Data) (s : Forwarder κ δ σ) : Prop where
  memory : ∀ id m, s.view PitEntry.marks id = some m → m.2 = memory (h id)
  next : ∀ id, (h id).isSome → id < s.nextPitEntry

theorem Remembered.insertsAtMost {h : ℕ → Option Data} (hs : Remembered h s) (hu : s.InsertsAtMost u) (id : ℕ)
    {m : Interest × Bool × ℕ} (hm : u.view PitEntry.marks id = some m) : m.2 = Ns3Ndn.memory (h id) := by
  rcases hu with rfl | ⟨interest, rfl⟩
  · exact hs.memory id m hm
  · rw [view, insertPitEntry, OrdMap.find?_insert] at hm
    split_ifs at hm with hid
    · have hnone : h id = none := by
        by_contra hne
        exact absurd (hs.next id (Option.isSome_iff_ne_none.mpr hne)) (hid ▸ lt_irrefl _)
      rw [hnone, ← Option.some.inj hm]
      rfl
    · exact hs.memory id m hm

/-- The Data of an event takes the place of the one before. -/
theorem memory_of_remarks {o h : ℕ → Option Data}
    (hu : ∀ id m, u.view PitEntry.marks id = some m → m.2 = memory (h id)) (ht : Remarks o u t) (id : ℕ)
    (m : Interest × Bool × ℕ) (hm : t.view PitEntry.marks id = some m) : m.2 = memory ((o id).or (h id)) := by
  rw [ht id] at hm
  obtain ⟨m', hm', rfl⟩ := Option.map_eq_some_iff.mp hm
  cases o id with
  | none => exact hu id m' hm'
  | some data => rfl

theorem Remembered.isSatisfied {h : ℕ → Option Data} (hs : Remembered h s) {id : ℕ} {e : PitEntry} (he : s.pit.find? id = some e) :
    e.isSatisfied = (h id).isSome ∧ e.dataFreshnessPeriod = ((h id).map Data.freshnessPeriod).getD 0 := by
  have hmemory := hs.memory id e.marks (by rw [view, he]; rfl)
  exact ⟨congrArg Prod.fst hmemory, congrArg Prod.snd hmemory⟩

def freshNonces (s : Forwarder κ δ σ) (ingress : FaceId) (id : ℕ) : List (Name × UInt32) :=
  match s.pit.find? id with
  | none => []
  | some e => noncesIf e.interest.mustBeFresh e.interest (e.getOutRecord ingress).toList

theorem noncesIf_and (a b : Bool) (interest : Interest) (records : List OutRecord) :
    noncesIf (a && b) interest records = if b then noncesIf a interest records else [] := by
  cases a <;> cases b <;> rfl

theorem freshNonces_ne_nil_iff {ingress : FaceId} {id : ℕ} :
    s.freshNonces ingress id ≠ [] ↔
      ∃ e, s.pit.find? id = some e ∧ e.interest.mustBeFresh = true ∧ (e.getOutRecord ingress).isSome := by
  unfold freshNonces noncesIf
  cases s.pit.find? id with
  | none => simp
  | some e =>
    cases e.interest.mustBeFresh <;> cases he : e.getOutRecord ingress <;> simp [he]

section Runs

variable (E : Env κ δ) {S : Strategy κ (δ × List (Name × UInt32)) σ} (hS : Lawful S) (hK : KeepsMarks S)
include hS hK

/-- **Every event keeps the invariant.** -/
theorem Remembered.step {h : ℕ → Option Data} {s : Forwarder κ (δ × List (Name × UInt32)) σ} (hl : s.Listed)
    (hs : Remembered h s) (e : FwEvent) :
    Remembered (s.satisfiedBy E.recording h e) (s.step E.recording S e) := by
  have hturn := step_turn E.recording hS s e
  have ht : (s.step E.recording S e).Listed := hl.turn hturn
  have hlt : ∀ id, ((s.step E.recording S e).pit.find? id).isSome →
      id < (s.step E.recording S e).nextPitEntry := fun id hid => ht.next id ((ht.mem id).mpr hid)
  have hnext : (∀ id, (s.satisfyingData E.recording id e).isSome → ((s.step E.recording S e).pit.find? id).isSome) →
      ∀ id, ((s.satisfyingData E.recording id e).or (h id)).isSome → id < (s.step E.recording S e).nextPitEntry := by
    intro hsome id hid
    rw [Option.isSome_or, Bool.or_eq_true] at hid
    rcases hid with hid | hid
    · exact hlt id (hsome id hid)
    · exact lt_of_lt_of_le (hs.next id hid) hturn.le_nextPitEntry
  cases e with
  | interest ingress interest =>
    obtain ⟨u, hu, -, hmarks, hsome⟩ := step_interest_marks E.recording hK s ingress interest
    refine ⟨memory_of_remarks (fun id m => hs.insertsAtMost hu id) hmarks, hnext fun id hid => ?_⟩
    have := congrArg Option.isSome (hmarks id)
    rw [view, view, Option.isSome_map, Option.isSome_map, Option.isSome_map] at this
    exact this.trans (hsome id hid)
  | data ingress endpoint data =>
    obtain ⟨-, hmarks⟩ := step_data_log E hS hK hl ingress endpoint data
    refine ⟨memory_of_remarks hs.memory hmarks, hnext fun id hid => ?_⟩
    have hmem : id ∈ s.dataMatches ingress data := by
      by_contra hne
      rw [satisfyingData, if_neg hne] at hid
      cases hid
    have hsome : (s.pit.find? id).isSome := by
      unfold dataMatches at hmem
      split at hmem
      · cases hmem
      · split_ifs at hmem
        · cases hmem
        · exact (hl.mem id).mp (Pit.mem_findAllDataMatches.mp hmem).1
    have := congrArg Option.isSome (hmarks id)
    rw [view, view, Option.isSome_map, Option.isSome_map, Option.isSome_map] at this
    exact this.trans hsome
  | expire event =>
    obtain ⟨-, hfind⟩ := s.step_expire_log E S event
    refine ⟨fun id m hm => ?_, hnext fun id hid => by cases hid⟩
    obtain ⟨e, he, rfl⟩ := Option.map_eq_some_iff.mp hm
    exact hs.memory id _ (by rw [view, hfind id e he]; rfl)
  | _ =>
    refine ⟨fun id m hm => ?_, hnext fun id hid => by cases hid⟩
    exact hs.memory id m (((step_quiet E.recording hK s _ (by rfl)).marks id).symm.trans hm)

/-- **An event logs what is due just if the freshness periods agree.** -/
theorem logsDue_iff {h : ℕ → Option Data} {s : Forwarder κ (δ × List (Name × UInt32)) σ} (hl : s.Listed)
    (hs : Remembered h s) (e : FwEvent) : LogsDue E S h s e ↔ s.FreshnessAgrees E.dnlLifetime e := by
  refine (and_iff_right fun id e he => (hs.isSatisfied he).1).trans ?_
  cases e with
  | data ingress endpoint data =>
    obtain ⟨hlog, hmarks⟩ := step_data_log E hS hK hl ingress endpoint data
    -- what is logged, and what is due, both choose from the nonces of the entries that ask for fresh Data
    have hlogged : (s.dataMatches ingress data).flatMap (turnNonces E ingress s) =
        (s.dataMatches ingress data).flatMap fun id =>
          if (s.pit.find? id).any fun e => decide (e.dataFreshnessPeriod < E.dnlLifetime) then
            s.freshNonces ingress id else [] := by
      refine List.flatMap_congr fun id _ => ?_
      unfold turnNonces freshNonces
      cases s.pit.find? id with
      | none => rfl
      | some e => exact noncesIf_and _ _ _ _
    have hdue : dueNonces E S h s (.data ingress endpoint data) = (s.dataMatches ingress data).flatMap fun id =>
        if decide (data.freshnessPeriod < E.dnlLifetime) then s.freshNonces ingress id else [] := by
      refine List.flatMap_congr fun id hid => ?_
      have hid' := hmarks id
      dsimp only at hid'
      rw [if_pos hid] at hid'
      unfold freshNonces view at *
      cases he : s.pit.find? id with
      | none => exact (ite_self _).symm
      | some e =>
        rw [he] at hid'
        obtain ⟨e', he', hm⟩ := Option.map_eq_some_iff.mp hid'
        have hsat : e'.isSatisfied = true := congrArg (fun m => m.2.1) hm
        dsimp only
        rw [he', Option.any_some, hsat, if_pos rfl]
        exact noncesIf_and _ _ _ _
    rw [hlog, List.append_cancel_left_eq, hlogged, hdue, flatMap_ite_eq_iff]
    refine forall₂_congr fun id _ => ?_
    rw [freshNonces_ne_nil_iff]
    constructor
    · intro hagree e he hfresh hrecord
      have := hagree ⟨e, he, hfresh, hrecord⟩
      rw [he, Option.any_some] at this
      exact decide_eq_decide.mp this
    · rintro hagree ⟨e, he, hfresh, hrecord⟩
      rw [he, Option.any_some]
      exact decide_eq_decide.mpr (hagree e he hfresh hrecord)
  | expire event =>
    refine iff_of_true ?_ trivial
    rw [(s.step_expire_log E S event).1, dueNonces]
    cases hfinal : s.finalizing event with
    | none => rfl
    | some final =>
      obtain ⟨id, e⟩ := final
      have he : s.pit.find? id = some e := by
        unfold finalizing at hfinal
        split at hfinal
        · cases hfinal
        · split_ifs at hfinal
          obtain ⟨e', he', heq⟩ := Option.map_eq_some_iff.mp hfinal
          obtain ⟨rfl, rfl⟩ := Prod.mk.inj heq
          exact he'
      obtain ⟨hsat, hfresh⟩ := hs.isSatisfied he
      dsimp only
      rw [hsat, hfresh, needDnl]
      cases h id <;> rfl
  | interest ingress interest =>
    obtain ⟨-, -, hlog, -⟩ := step_interest_marks E.recording hK s ingress interest
    refine iff_of_true ?_ trivial
    rw [hlog]
    exact (List.append_nil _).symm
  | _ =>
    refine iff_of_true ?_ trivial
    rw [(step_quiet E.recording hK s _ (by rfl)).deadNonceList]
    exact (List.append_nil _).symm

end Runs

/-- A forwarder that has just started, with an empty log. -/
def loggingForwarder : Forwarder Unit (List (Name × UInt32) × List (Name × UInt32)) QLearning where
  cs := ()
  deadNonceList := ([], [])
  strategy := { tape := fun _ => ⟨false, 0⟩ }

def freshData (freshnessPeriod : ℕ) : List FwEvent :=
  [.addFace linkFace, .addFace linkFace, .addNextHop [] 257 1,
    .interest 256 { name := nameA, nonce := 1, mustBeFresh := true },
    .data 257 0 { name := nameA, freshnessPeriod }, .expire 1]

end Forwarder

end Ns3Ndn
