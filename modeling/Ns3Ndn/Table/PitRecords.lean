import Ns3Ndn.Table.Tables

/-!
# The records of PIT entries

The in-records and out-records of `NFD/daemon/table/pit-entry.cpp`. A record is looked for by its face and is made only
when there is none, so an entry has at most one record for each face. The operations on the tables give an entry the records
that the pipelines and strategies have made of those it has.

* **`Reachable.distinctRecords`**: the records of an entry have different faces.
-/

namespace Ns3Ndn

open OrdLib LpmLib NameTree

/-! ## Records -/

/-- `insertOrUpdateInRecord` and `insertOrUpdateOutRecord`. The nonce and the times of a record are left out. -/
def insertOrUpdateRecord (records : List NtRecord) (face : FaceId) : List NtRecord :=
  if records.any (·.face == face) then records else { face := face } :: records

def deleteRecord (records : List NtRecord) (face : FaceId) : List NtRecord := records.eraseP (·.face == face)

inductive RecordStep (records : List NtRecord) : List NtRecord → Prop
  | insertOrUpdate (face : FaceId) : RecordStep records (insertOrUpdateRecord records face)
  | delete (face : FaceId) : RecordStep records (deleteRecord records face)
  | clear : RecordStep records []
  | insertStrategyInfo (face : FaceId) (info : StrategyInfo) :
    RecordStep records (records.map fun r => if r.face = face then { r with info := info } else r)

def DistinctFaces (records : List NtRecord) : Prop := (records.map NtRecord.face).Nodup

variable {records records' : List NtRecord}

theorem DistinctFaces.delete (h : DistinctFaces records) (face : FaceId) : DistinctFaces (deleteRecord records face) :=
  h.sublist (List.eraseP_sublist.map _)

theorem DistinctFaces.map (h : DistinctFaces records) {f : NtRecord → NtRecord} (hf : ∀ r, (f r).face = r.face) :
    DistinctFaces (records.map f) := by
  unfold DistinctFaces
  rw [List.map_map, show NtRecord.face ∘ f = NtRecord.face from funext hf]
  exact h

theorem DistinctFaces.step (h : DistinctFaces records) (hstep : RecordStep records records') : DistinctFaces records' := by
  cases hstep with
  | insertOrUpdate face =>
    unfold insertOrUpdateRecord
    split_ifs with hany
    · exact h
    · refine List.nodup_cons.mpr ⟨fun hface => hany ?_, h⟩
      obtain ⟨r, hr, hrf⟩ := List.mem_map.mp hface
      exact List.any_eq_true.mpr ⟨r, hr, beq_iff_eq.mpr hrf⟩
  | delete face => exact h.delete face
  | clear => exact List.nodup_nil
  | insertStrategyInfo face info =>
    refine h.map fun r => ?_
    split_ifs <;> rfl

theorem DistinctFaces.steps (h : DistinctFaces records) (hsteps : Relation.ReflTransGen RecordStep records records') :
    DistinctFaces records' := by
  induction hsteps with
  | refl => exact h
  | tail _ hstep ih => exact ih.step hstep

theorem eraseP_eq_filter {α : Type} {key : α → FaceId} {l : List α} (h : (l.map key).Nodup) (face : FaceId) :
    l.eraseP (key · == face) = l.filter (key · != face) := by
  induction l with
  | nil => rfl
  | cons a l ih =>
    obtain ⟨ha, hl⟩ := List.nodup_cons.mp h
    by_cases hface : key a = face
    · rw [List.eraseP_cons_of_pos (p := (key · == face)) (beq_iff_eq.mpr hface), List.filter_cons_of_neg (by simp [hface])]
      refine (List.filter_eq_self.mpr fun b hb => bne_iff_ne.mpr ?_).symm
      rintro rfl
      exact ha (hface ▸ List.mem_map_of_mem hb)
    · rw [List.eraseP_cons_of_neg (p := (key · == face)) (by simpa using hface), List.filter_cons_of_pos (by simpa using hface), ih hl]

/-! ## Entries -/

structure NtPitEntry.DistinctRecords (e : NtPitEntry) : Prop where
  inRecords : DistinctFaces e.inRecords
  outRecords : DistinctFaces e.outRecords

namespace NameTree

/-- **The records of every entry have different faces.** -/
structure DistinctRecords (nt : NameTree) : Prop where
  shaped : nt.Shaped
  distinct : ∀ name, ∀ e ∈ (nt.tablesAt name).pitEntries, e.DistinctRecords

variable {nt : NameTree}

theorem DistinctRecords.lookup (h : nt.DistinctRecords) {name : Name} {prefixLen : ℕ} (hlen : prefixLen ≤ name.length)
    (hdepth : prefixLen ≤ maxDepth) : (nt.lookup name prefixLen).DistinctRecords :=
  ⟨h.shaped.lookup hlen hdepth, fun m => by rw [tablesAt_lookup]; exact h.distinct m⟩

theorem DistinctRecords.eraseIfEmpty (h : nt.DistinctRecords) (name : Name) (canEraseAncestors : Bool) :
    (nt.eraseIfEmpty name canEraseAncestors).DistinctRecords :=
  ⟨h.shaped.eraseIfEmpty name canEraseAncestors, fun m => by
    rw [h.shaped.tablesAt_eraseIfEmpty]
    exact h.distinct m⟩

theorem DistinctRecords.edit (h : nt.DistinctRecords) (name : Name) (f : TableEntries → TableEntries)
    (hf : (∀ e ∈ (nt.tablesAt name).pitEntries, e.DistinctRecords) →
      ∀ e ∈ (f (nt.tablesAt name)).pitEntries, e.DistinctRecords) : (nt.edit name f).DistinctRecords := by
  refine ⟨h.shaped.edit name f, fun m => ?_⟩
  have htables := Tables.tablesAt_edit_eq { nameTree := nt } name f m
  change (nt.edit name f).tablesAt m = _ at htables
  rw [htables]
  split_ifs with hm
  · rw [← hm.1]
    exact hf (h.distinct name)
  · exact h.distinct m

end NameTree

/-! ## Operations -/

namespace Tables

variable {S : NextHopSort} {registry : StrategyRegistry} {t t' : Tables}

/-- The records that the pipelines and strategies give an entry are made of those it has. -/
def EditsRecords (t : Tables) : TableOp → Prop
  | .pitUpdate nte id inRecords outRecords _ => ∀ e, t.pitEntry nte id = some e →
    Relation.ReflTransGen RecordStep e.inRecords inRecords ∧ Relation.ReflTransGen RecordStep e.outRecords outRecords
  | _ => True

/-- **The tables that are made** from those of a new forwarder. -/
inductive Reachable (S : NextHopSort) (registry : StrategyRegistry) : Tables → Prop
  | initial (defaultStrategy : Option Name) : Reachable S registry (initial defaultStrategy)
  | step {t t' : Tables} (h : Reachable S registry t) (op : TableOp) (hop : t.EditsRecords op)
    (hstep : t.step S registry op = some t') : Reachable S registry t'

theorem Reachable.valid (h : Reachable S registry t) : t.Valid := by
  induction h with
  | initial defaultStrategy => exact valid_initial defaultStrategy
  | step _ _ _ hstep ih => exact (step_changes hstep).valid ih

section Operations

section

variable (h : t.nameTree.DistinctRecords)

include h

theorem edit_distinct (name : Name) (f : TableEntries → TableEntries)
    (hf : (∀ e ∈ (t.tablesAt name).pitEntries, e.DistinctRecords) → ∀ e ∈ (f (t.tablesAt name)).pitEntries, e.DistinctRecords) :
    (t.edit name f).nameTree.DistinctRecords :=
  h.edit name f hf

theorem editOther_distinct (name : Name) {f : TableEntries → TableEntries} (hf : ∀ te, (f te).pitEntries = te.pitEntries) :
    (t.edit name f).nameTree.DistinctRecords :=
  h.edit name f fun hdistinct => by rw [hf]; exact hdistinct

theorem fibInsert_distinct {prefixName : Name} (hinsert : t.fibInsert prefixName = some t') : t'.nameTree.DistinctRecords := by
  unfold fibInsert at hinsert
  dsimp only at hinsert
  split_ifs at hinsert with hdepth hsome
  · cases hinsert
    exact h.lookup le_rfl (Nat.not_lt.mp hdepth)
  · cases hinsert
    have hlookup : (t.lookup prefixName prefixName.length).nameTree.DistinctRecords := h.lookup le_rfl (Nat.not_lt.mp hdepth)
    exact editOther_distinct (f := fun te => { te with fibEntry := some [] }) hlookup prefixName fun _ => rfl

theorem fibEraseNode_distinct (nte : Name) (canDeleteNte : Bool) :
    (t.fibEraseNode nte canDeleteNte).nameTree.DistinctRecords := by
  have hedit : (t.edit nte fun te => { te with fibEntry := none }).nameTree.DistinctRecords := editOther_distinct h nte fun _ => rfl
  cases canDeleteNte with
  | false => exact hedit
  | true => exact hedit.eraseIfEmpty nte true

theorem fibErase_distinct (prefixName : Name) : (t.fibErase prefixName).nameTree.DistinctRecords := by
  unfold fibErase
  split
  · exact h
  · exact fibEraseNode_distinct h _ true

theorem fibEraseEntry_distinct {entry : Option Name} (herase : t.fibEraseEntry entry = some t') :
    t'.nameTree.DistinctRecords := by
  unfold fibEraseEntry at herase
  cases entry with
  | none =>
    cases herase
    exact h
  | some nte =>
    dsimp only at herase
    split_ifs at herase
    cases herase
    exact fibEraseNode_distinct h nte true

theorem fibRemoveNextHop_distinct {entry : Name} {face : FaceId} (hremove : t.fibRemoveNextHop entry face = some t') :
    t'.nameTree.DistinctRecords := by
  obtain ⟨nextHops, -, hremove⟩ := Option.bind_eq_some_iff.mp hremove
  split at hremove
  · cases hremove
    exact h
  case h_2 nextHops' _ =>
    have hedit : (t.edit entry fun te => { te with fibEntry := some nextHops' }).nameTree.DistinctRecords :=
      editOther_distinct h entry fun _ => rfl
    dsimp only at hremove
    split_ifs at hremove
    · cases hremove
      exact fibEraseNode_distinct hedit entry false
    · cases hremove
      exact hedit

end

theorem deleteInOutRecords_distinct {e : NtPitEntry} (h : e.DistinctRecords) (face : FaceId) :
    (deleteInOutRecords face e).DistinctRecords := ⟨h.inRecords.delete face, h.outRecords.delete face⟩

section

variable (h : t.nameTree.DistinctRecords)

include h

theorem cleanupNode_distinct (face : FaceId) (nte : Name) : (t.cleanupNode face nte).nameTree.DistinctRecords := by
  have hfib : ((t.fibRemoveNextHop nte face).getD t).nameTree.DistinctRecords := by
    cases hremove : t.fibRemoveNextHop nte face with
    | none => exact h
    | some t' => exact fibRemoveNextHop_distinct h hremove
  unfold cleanupNode
  refine edit_distinct hfib nte _ fun hdistinct e he => ?_
  obtain ⟨e', he', rfl⟩ := List.mem_map.mp he
  exact deleteInOutRecords_distinct (hdistinct e' he') face

theorem cleanupOnFaceRemoval_distinct (face : FaceId) : (t.cleanupOnFaceRemoval face).nameTree.DistinctRecords := by
  have hnodes : ∀ (ntes : List Name) (s : Tables × List Name), s.1.nameTree.DistinctRecords →
      (ntes.foldl (fun s nte =>
        let t := s.1.cleanupNode face nte
        (t, if (t.tablesAt nte).hasTableEntries then s.2 else s.2 ++ [nte])) s).1.nameTree.DistinctRecords :=
    fun ntes s hs => List.foldlRecOn (motive := fun s : Tables × List Name => s.1.nameTree.DistinctRecords) ntes _ hs
      fun _ hs nte _ => cleanupNode_distinct hs face nte
  unfold cleanupOnFaceRemoval cleanupNodes
  exact List.foldlRecOn (motive := fun t : Tables => t.nameTree.DistinctRecords) _ _ (hnodes _ (t, []) h)
    fun _ ht nte _ => ht.eraseIfEmpty nte false

theorem insertPitEntry_distinct (interest : Interest) (nte : Name) :
    (t.insertPitEntry interest nte).nameTree.DistinctRecords := by
  unfold insertPitEntry
  dsimp only
  refine edit_distinct h nte _ fun hdistinct e he => ?_
  rcases List.mem_append.mp he with he | he
  · exact hdistinct e he
  · obtain rfl := List.mem_singleton.mp he
    exact ⟨List.nodup_nil, List.nodup_nil⟩

theorem pitFindOrInsert_distinct (interest : Interest) (allowInsert : Bool) :
    (t.pitFindOrInsert interest allowInsert).1.nameTree.DistinctRecords := by
  unfold pitFindOrInsert
  dsimp only
  cases allowInsert with
  | true =>
    have hlookup := h.lookup (nteDepth_le_length interest.name) (min_le_right _ _)
    simp only [Bool.true_or, if_true]
    split
    · exact hlookup
    · exact insertPitEntry_distinct (t := t.lookup interest.name (nteDepth interest.name)) hlookup interest _
  | false =>
    simp only [Bool.false_or, Bool.false_eq_true, if_false]
    split
    · split
      · exact h
      · exact h
    · exact h

end

theorem mem_of_mem_erasePitEntry {entries : List NtPitEntry} {id : ℕ} {e : NtPitEntry} (h : e ∈ erasePitEntry entries id) :
    e ∈ entries := by
  unfold erasePitEntry at h
  split at h
  · exact h
  case h_2 last hlast =>
    obtain ⟨e', he', rfl⟩ := List.mem_map.mp (List.dropLast_subset _ h)
    split_ifs
    · exact List.mem_of_getLast? hlast
    · exact he'

theorem pitErase_distinct (h : t.nameTree.DistinctRecords) {nte : Name} {id : ℕ} {canDeleteNte : Bool}
    (herase : t.pitErase nte id canDeleteNte = some t') : t'.nameTree.DistinctRecords := by
  obtain ⟨_, -, herase⟩ := Option.bind_eq_some_iff.mp herase
  cases herase
  have hedit : (t.edit nte fun te => { te with pitEntries := erasePitEntry te.pitEntries id }).nameTree.DistinctRecords :=
    edit_distinct h nte _ fun hdistinct e he => hdistinct e (mem_of_mem_erasePitEntry he)
  split_ifs
  · exact hedit.eraseIfEmpty nte true
  · exact hedit

theorem pitUpdate_distinct (h : t.nameTree.DistinctRecords) {nte : Name} {id : ℕ} {inRecords outRecords : List NtRecord}
    {info : StrategyInfo} (hop : t.EditsRecords (.pitUpdate nte id inRecords outRecords info))
    (hupdate : t.pitUpdate nte id inRecords outRecords info = some t') : t'.nameTree.DistinctRecords := by
  obtain ⟨e₀, he₀, hupdate⟩ := Option.bind_eq_some_iff.mp hupdate
  obtain ⟨hin, hout⟩ := hop e₀ he₀
  cases hupdate
  refine edit_distinct h nte _ fun hdistinct e he => ?_
  obtain ⟨e', he', rfl⟩ := List.mem_map.mp he
  split_ifs with hid
  · have he₀mem := List.mem_of_find?_eq_some he₀
    obtain ⟨hin₀, hout₀⟩ := hdistinct e₀ he₀mem
    exact ⟨hin₀.steps hin, hout₀.steps hout⟩
  · exact hdistinct e' he'

theorem clearPitEntry_distinct {e : NtPitEntry} (h : e.DistinctRecords) : (clearPitEntry e).DistinctRecords :=
  ⟨h.inRecords.map fun _ => rfl, h.outRecords.map fun _ => rfl⟩

variable (h : t.nameTree.DistinctRecords)

include h

theorem changeStrategy_distinct {prefixName oldStrategy newStrategy : Name}
    (hchange : t.changeStrategy registry prefixName oldStrategy newStrategy = some t') : t'.nameTree.DistinctRecords := by
  unfold changeStrategy at hchange
  split_ifs at hchange
  · cases hchange
    exact h
  · obtain ⟨ntChanged, -, hchange⟩ := Option.bind_eq_some_iff.mp hchange
    cases hchange
    refine List.foldlRecOn (motive := fun t : Tables => t.nameTree.DistinctRecords) ntChanged _ h fun t ht nte _ => ?_
    refine edit_distinct ht nte _ fun hdistinct e he => ?_
    obtain ⟨e', he', rfl⟩ := List.mem_map.mp he
    exact clearPitEntry_distinct (hdistinct e' he')

theorem setStrategy_distinct (prefixName : Name) (strategy : Option Name) :
    (t.setStrategy prefixName strategy).nameTree.DistinctRecords := editOther_distinct h prefixName fun _ => rfl

theorem strategyInsert_distinct {prefixName strategyName : Name} {result : InsertResult}
    (hinsert : t.strategyInsert registry prefixName strategyName = some (t', result)) : t'.nameTree.DistinctRecords := by
  unfold strategyInsert at hinsert
  split_ifs at hinsert with hdepth
  · cases hinsert
    exact h
  · have hlookup : (t.lookup prefixName prefixName.length).nameTree.DistinctRecords := h.lookup le_rfl (Nat.not_lt.mp hdepth)
    split at hinsert
    · cases hinsert
      exact h
    · cases hinsert
      exact h
    · dsimp only at hinsert
      split at hinsert
      · split_ifs at hinsert
        · cases hinsert
          exact hlookup
        · obtain ⟨t₁, hchange, hinsert⟩ := Option.bind_eq_some_iff.mp hinsert
          cases hinsert
          exact setStrategy_distinct (changeStrategy_distinct hlookup hchange) _ _
      · obtain ⟨oldStrategy, -, hinsert⟩ := Option.bind_eq_some_iff.mp hinsert
        obtain ⟨t₁, hchange, hinsert⟩ := Option.bind_eq_some_iff.mp hinsert
        cases hinsert
        exact setStrategy_distinct (changeStrategy_distinct (setStrategy_distinct hlookup _ _) hchange) _ _

theorem strategyErase_distinct {prefixName : Name} (herase : t.strategyErase registry prefixName = some t') :
    t'.nameTree.DistinctRecords := by
  unfold strategyErase at herase
  split_ifs at herase
  split at herase
  · cases herase
    exact h
  · split at herase
    · cases herase
      exact h
    · obtain ⟨parentStrategy, -, herase⟩ := Option.bind_eq_some_iff.mp herase
      obtain ⟨t₁, hchange, herase⟩ := Option.bind_eq_some_iff.mp herase
      cases herase
      exact (setStrategy_distinct (changeStrategy_distinct h hchange) _ none).eraseIfEmpty _ true

end Operations

/-- **A step.** -/
theorem step_distinct (h : t.nameTree.DistinctRecords) {op : TableOp} (hop : t.EditsRecords op)
    (hstep : t.step S registry op = some t') : t'.nameTree.DistinctRecords := by
  have hmeasure : ∀ {t : Tables}, t.nameTree.DistinctRecords → ∀ nte, (t.measurementsGetNode nte).nameTree.DistinctRecords :=
    fun ht nte => editOther_distinct ht nte fun _ => rfl
  cases op with
  | lookup name prefixLen =>
    unfold step at hstep
    dsimp only at hstep
    split_ifs at hstep with hlen
    cases hstep
    exact h.lookup hlen.1 hlen.2
  | eraseIfEmpty name canEraseAncestors =>
    obtain ⟨_, -, hstep⟩ := Option.bind_eq_some_iff.mp hstep
    cases hstep
    exact h.eraseIfEmpty name canEraseAncestors
  | fibInsert => exact fibInsert_distinct h hstep
  | fibErase prefixName =>
    cases hstep
    exact fibErase_distinct h prefixName
  | fibEraseEntry => exact fibEraseEntry_distinct h hstep
  | fibAddOrUpdateNextHop entry =>
    obtain ⟨r, hr, rfl⟩ := Option.map_eq_some_iff.mp hstep
    obtain ⟨nextHops, -, hr⟩ := Option.bind_eq_some_iff.mp hr
    cases hr
    exact editOther_distinct h entry fun _ => rfl
  | fibRemoveNextHop => exact fibRemoveNextHop_distinct h hstep
  | cleanupOnFaceRemoval face =>
    cases hstep
    exact cleanupOnFaceRemoval_distinct h face
  | pitFindOrInsert interest allowInsert =>
    cases hstep
    exact pitFindOrInsert_distinct h interest allowInsert
  | pitErase => exact pitErase_distinct h hstep
  | pitUpdate => exact pitUpdate_distinct h hop hstep
  | measurementsGet name =>
    cases hstep
    exact hmeasure (t := t.lookup name _) (h.lookup (min_le_left _ _) (min_le_right _ _)) _
  | measurementsGetFib entry =>
    change t.measurementsGetFib entry = some t' at hstep
    cases entry with
    | none =>
      cases hstep
      exact hmeasure (t := t.lookup [] 0) (h.lookup le_rfl (Nat.zero_le _)) _
    | some nte =>
      unfold measurementsGetFib at hstep
      dsimp only at hstep
      split_ifs at hstep
      cases hstep
      exact hmeasure h nte
  | measurementsGetPit =>
    obtain ⟨e, -, hstep⟩ := Option.bind_eq_some_iff.mp hstep
    dsimp only at hstep
    split_ifs at hstep with hdigest
    · cases hstep
      rw [Bool.and_eq_true, decide_eq_true_iff] at hdigest
      exact hmeasure (t := t.lookup _ _) (h.lookup le_rfl hdigest.2) _
    · cases hstep
      exact hmeasure h _
  | measurementsGetParent =>
    obtain ⟨_, -, hstep⟩ := Option.bind_eq_some_iff.mp hstep
    split_ifs at hstep
    · cases hstep
      exact h
    · cases hstep
      exact hmeasure h _
  | measurementsCleanup entry =>
    obtain ⟨_, -, hstep⟩ := Option.bind_eq_some_iff.mp hstep
    cases hstep
    have hedit : (t.edit entry fun te => { te with measurementsEntry := none }).nameTree.DistinctRecords :=
      editOther_distinct h entry fun _ => rfl
    exact hedit.eraseIfEmpty entry true
  | measurementsUpdate entry =>
    obtain ⟨_, -, hstep⟩ := Option.bind_eq_some_iff.mp hstep
    cases hstep
    exact editOther_distinct h entry fun _ => rfl
  | strategyInsert =>
    obtain ⟨r, hr, rfl⟩ := Option.map_eq_some_iff.mp hstep
    exact strategyInsert_distinct h hr
  | strategyErase => exact strategyErase_distinct h hstep

/-- **The records of every entry have different faces**, in every state. -/
theorem Reachable.distinctRecords (h : Reachable S registry t) : t.nameTree.DistinctRecords := by
  induction h with
  | initial defaultStrategy =>
    have hempty : DistinctRecords OrdMap.empty := ⟨shaped_empty, fun name e he => absurd he List.not_mem_nil⟩
    cases defaultStrategy with
    | none => exact hempty
    | some strategy =>
      have hlookup : (Tables.lookup { nameTree := .empty } [] 0).nameTree.DistinctRecords := hempty.lookup le_rfl (Nat.zero_le _)
      exact setStrategy_distinct hlookup [] _
  | step h _ hop hstep ih => exact step_distinct ih hop hstep

end Tables

end Ns3Ndn
