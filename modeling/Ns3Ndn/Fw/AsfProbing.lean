import Ns3Ndn.Fw.AsfMeasurements
import Ns3Ndn.Lib.KeySet
import Ns3Ndn.Lib.Roulette
import Mathlib.Data.Prod.Lex

/-!
# Probing of the ASF strategy

`NFD/daemon/fw/asf-probing-module.cpp`. From time to time a namespace is due for probing, and an Interest is then also sent
to a face that is not the best one. The flag is set by an event for the prefix of the FIB entry, and read where the FIB entry
and the name of the Interest lead to. The face is drawn from a set that is ordered by the measurements.

* **`probeEvent_due_iff`**: when the event reaches the flag that was read;
* **`probesEvery_iff`**: when every face has its share.
-/

namespace Ns3Ndn

open OrdLib NameTree Tables

/-! ## When to probe -/

namespace AsfMeasurements

section Flag

variable (s : AsfMeasurements) (strategy : AsfStrategy)

def probeEvent (fibPrefix : Name) : AsfMeasurements :=
  match s.getNamespaceInfo strategy fibPrefix with
  | (s, none) => s
  | (s, some me) => s.modify me fun info => { info with isProbingDue := true }

/-- `isProbingNeeded`: the prefix that an event is scheduled for, if any, and the answer. -/
def isProbingNeeded (fibEntry : FibEntry) (interestName : Name) : Option (AsfMeasurements × Option Name × Bool) :=
  (s.getOrCreateNamespaceInfo strategy fibEntry interestName).map fun (s, me) =>
    if (s.infos me).isFirstProbeScheduled then (s, none, (s.infos me).isProbingDue)
    else
      (s.modify me fun info => { info with isFirstProbeScheduled := true }, some fibEntry.getPrefix,
        (s.infos me).isProbingDue)

/-- `afterForwardingProbe`: an event is scheduled in any case. -/
def afterForwardingProbe (fibEntry : FibEntry) (interestName : Name) : Option (AsfMeasurements × Name) :=
  (s.getOrCreateNamespaceInfo strategy fibEntry interestName).map fun (s, me) =>
    (s.modify me fun info => { info with isProbingDue := false }, fibEntry.getPrefix)

end Flag

variable {s s' : AsfMeasurements} {strategy : AsfStrategy} {fibEntry : FibEntry} {name me : Name} {info : NamespaceInfo}

theorem findLongestPrefixMatch_spec (h : s.findLongestPrefixMatch strategy name = some me) :
    me <+: name ∧ s.governs strategy me ∧ (s.tables.tablesAt me).measurementsEntry.isSome := by
  obtain ⟨hmatch, hgoverns⟩ := Option.filter_eq_some_iff.1 h
  obtain ⟨hbegins, -, ⟨e, he, hme⟩, -⟩ := findLongestPrefixMatch_eq_some_iff.1 hmatch
  refine ⟨hbegins.trans (List.take_prefix _ _), hgoverns, ?_⟩
  rw [Tables.tablesAt, tablesAt_of_find? he]
  exact hme

theorem findLongestPrefixMatch_self (hme : (s.tables.tablesAt name).measurementsEntry.isSome)
    (hdepth : name.length ≤ maxDepth) :
    s.findLongestPrefixMatch strategy name = if s.governs strategy name then some name else none := by
  have hmatch : s.tables.nameTree.findLongestPrefixMatch nteHasMeasurementsEntry name = some name := by
    refine findLongestPrefixMatch_eq_some_iff.2 ⟨List.prefix_rfl, hdepth, ?_, fun m hm _ _ => hm.length_le⟩
    unfold Tables.tablesAt NameTree.tablesAt at hme
    unfold Accepts
    cases he : s.tables.nameTree.find? name with
    | none => simp [he] at hme
    | some e => exact ⟨e, rfl, by simpa [he, nteHasMeasurementsEntry] using hme⟩
  unfold findLongestPrefixMatch filter
  rw [List.take_of_length_le hdepth, hmatch, Option.filter_some]

/-- The event changes the item of the match and no other one. -/
theorem namespaceInfo_probeEvent (s : AsfMeasurements) (strategy : AsfStrategy) (fibPrefix m : Name) :
    (s.probeEvent strategy fibPrefix).namespaceInfo m =
      if s.findLongestPrefixMatch strategy fibPrefix = some m then
        some { (s.namespaceInfo m).getD {} with isProbingDue := true }
      else s.namespaceInfo m := by
  unfold probeEvent getNamespaceInfo
  cases hmatch : s.findLongestPrefixMatch strategy fibPrefix with
  | none => simp
  | some me =>
    obtain ⟨-, -, hme⟩ := findLongestPrefixMatch_spec hmatch
    dsimp only
    rw [namespaceInfo_modify, namespaceInfo_insertStrategyInfo s hme]
    by_cases hm : m = me
    · simp [hm]
    · simp [hm, Ne.symm hm]

/-- **The flag that is read** is set by the event just when the strategy governs the prefix of the FIB entry, when it is read
and when the event fires, or when it is set already. -/
theorem probeEvent_due_iff {s₀ s₁ : AsfMeasurements} (hvalid : s₀.tables.Valid)
    (hread : s₀.getOrCreateNamespaceInfo strategy fibEntry name = some (s', me)) (hinfo : s₁.namespaceInfo me = some info) :
    ((s₁.probeEvent strategy fibEntry.getPrefix).namespaceInfo me).map NamespaceInfo.isProbingDue = some true ↔
      info.isProbingDue = true ∨
        s₀.governs strategy fibEntry.getPrefix = true ∧ s₁.governs strategy fibEntry.getPrefix = true := by
  have hnode := getOrCreateNamespaceInfo_node hvalid hread
  rw [namespaceInfo_probeEvent, hinfo]
  by_cases hgoverns : s₀.governs strategy fibEntry.getPrefix
  · rw [if_pos hgoverns] at hnode
    subst hnode
    have hme : (s₁.tables.tablesAt fibEntry.getPrefix).measurementsEntry.isSome := by
      unfold namespaceInfo at hinfo
      split at hinfo
      · next hid => cases hentry : (s₁.tables.tablesAt fibEntry.getPrefix).measurementsEntry <;> simp [hentry] at hid ⊢
      · cases hinfo
    rw [findLongestPrefixMatch_self hme fibEntry.depth]
    by_cases hgoverns₁ : s₁.governs strategy fibEntry.getPrefix
    · simp [hgoverns, hgoverns₁]
    · simp [hgoverns₁]
  · rw [if_neg hgoverns] at hnode
    have hother : s₁.findLongestPrefixMatch strategy fibEntry.getPrefix ≠ some me :=
      fun hmatch => hnode (findLongestPrefixMatch_spec hmatch).1
    simp [hgoverns, hother]

/-- A FIB entry at `ndn:/A`, with one strategy above it and another one at `ndn:/A/B`. -/
def probingTables : Tables :=
  (run insertionSort freeRegistry (initial (some []))
    [.fibInsert Tables.nameA, .strategyInsert Tables.nameAB Tables.nameAB]).getD (initial none)

theorem run_probingTables :
    run insertionSort freeRegistry (initial (some [])) [.fibInsert Tables.nameA, .strategyInsert Tables.nameAB Tables.nameAB] =
      some probingTables := rfl

def fibEntryA : FibEntry := ⟨some Tables.nameA, [], by decide, by decide⟩

/-- What is left by `isProbingNeeded` of the strategy at a node, for an Interest for `ndn:/A/B`. -/
def probingState (nte : Name) : AsfMeasurements :=
  (((AsfMeasurements.mk probingTables fun _ => {}).isProbingNeeded ⟨nte, 3⟩ fibEntryA Tables.nameAB).map Prod.fst).getD
    ⟨probingTables, fun _ => {}⟩

/-- The strategy above the FIB entry. -/
theorem probeEvent_due_root :
    (((probingState []).probeEvent ⟨[], 3⟩ fibEntryA.getPrefix).namespaceInfo Tables.nameA).map NamespaceInfo.isProbingDue =
        some true ↔
      ((probingState []).infos Tables.nameA).isProbingDue = true ∨
        (AsfMeasurements.mk probingTables fun _ => {}).governs ⟨[], 3⟩ fibEntryA.getPrefix = true ∧
          (probingState []).governs ⟨[], 3⟩ fibEntryA.getPrefix = true :=
  probeEvent_due_iff (run_valid (some []) run_probingTables)
    (rfl : (AsfMeasurements.mk probingTables fun _ => {}).getOrCreateNamespaceInfo ⟨[], 3⟩ fibEntryA Tables.nameAB =
      some (_, Tables.nameA))
    (if_pos (by decide))

/-- The strategy at `ndn:/A/B`: its flag is read, an event is scheduled, and the event does not set the flag. -/
theorem not_probeEvent_due :
    ((AsfMeasurements.mk probingTables fun _ => {}).getOrCreateNamespaceInfo ⟨Tables.nameAB, 3⟩ fibEntryA Tables.nameAB).map
        Prod.snd =
        some Tables.nameAB ∧
      ((AsfMeasurements.mk probingTables fun _ => {}).isProbingNeeded ⟨Tables.nameAB, 3⟩ fibEntryA Tables.nameAB).map Prod.snd =
        some (some fibEntryA.getPrefix, false) ∧
      (((probingState Tables.nameAB).probeEvent ⟨Tables.nameAB, 3⟩ fibEntryA.getPrefix).namespaceInfo Tables.nameAB).map
        NamespaceInfo.isProbingDue = some false := by
  refine ⟨?_, ?_, ?_⟩ <;> decide

end AsfMeasurements

/-! ## What to probe -/

/-- `FaceInfoCompare`. -/
def FaceInfo.compare (lhs rhs : FaceInfo) : Bool :=
  (! lhs.hasTimeout && rhs.hasTimeout) || (lhs.hasTimeout == rhs.hasTimeout && decide (lhs.sRtt < rhs.sRtt))

/-- What `FaceInfoCompare` compares. -/
def FaceInfo.rank (info : FaceInfo) : Bool ×ₗ ℤ := toLex (info.hasTimeout, info.sRtt)

/-- The arguments of `getFaceToProbe`, with the faces by their ids. -/
structure ProbeQuery where
  faces : FaceId → Face
  inFace : FaceId
  interest : Interest
  fibEntry : FibEntry
  faceUsed : FaceId
  /-- `m_measurements.getFaceInfo(fibEntry, interest.getName(), ·)` -/
  faceInfo : FaceId → Option FaceInfo

namespace ProbeQuery

open RouletteLib KeySet MeasureTheory

section Definitions

variable (q : ProbeQuery)

/-- Not the face that the Interest came from, not the one it was sent to, and in scope. -/
def isEligible (hopFace : FaceId) : Bool :=
  ! (hopFace == q.inFace || hopFace == q.faceUsed || wouldViolateScope (q.faces q.inFace) q.interest (q.faces hopFace))

/-- The loop over the next hops: a face without a measurement, or the set of the others. -/
def rankFaces : List FaceId → OrdMap (Bool ×ₗ ℤ) FaceId → FaceId ⊕ OrdMap (Bool ×ₗ ℤ) FaceId
  | [], rankedFaces => .inr rankedFaces
  | hopFace :: hops, rankedFaces =>
    if ! q.isEligible hopFace then rankFaces hops rankedFaces
    else
      match q.faceInfo hopFace with
      | none => .inl hopFace
      | some info =>
        if info.lastRtt = FaceInfo.RTT_NO_MEASUREMENT then .inl hopFace
        else rankFaces hops (rankedFaces.insertNew info.rank hopFace)

variable {K : Type} [Field K] [LinearOrder K]

def getProbingProbability (nFaces rank : ℕ) : K := ((nFaces + 1 - rank : ℕ) : K) / (((nFaces + 1) * nFaces / 2 : ℕ) : K)

def chooseFace (rankedFaces : List FaceId) (randomNumber : K) : Option FaceId :=
  pick (getProbingProbability rankedFaces.length) randomNumber 1 0 rankedFaces

def getFaceToProbe (randomNumber : K) : Option FaceId :=
  match q.rankFaces (q.fibEntry.nextHops.map NextHop.face) .empty with
  | .inl hopFace => some hopFace
  | .inr rankedFaces =>
    if rankedFaces.toList.isEmpty then none else chooseFace (values rankedFaces) randomNumber

def eligible : List FaceId := (q.fibEntry.nextHops.map NextHop.face).filter q.isEligible

def Measured (face : FaceId) : Prop := ∃ info, q.faceInfo face = some info ∧ info.lastRtt ≠ FaceInfo.RTT_NO_MEASUREMENT

def rank (face : FaceId) : Bool ×ₗ ℤ := ((q.faceInfo face).getD {}).rank

/-- Every eligible face has its share: for the face of rank `j + 1` of `n` it is `(n - j) / (n * (n + 1) / 2)`. -/
structure ProbesEvery : Prop where
  returns : q.eligible ≠ [] → ∀ r : ℝ, 0 ≤ r → r < 1 → ∃ face ∈ q.eligible, q.getFaceToProbe r = some face
  covers : ∀ face ∈ q.eligible, ∃ r : ℝ, 0 ≤ r ∧ r < 1 ∧ q.getFaceToProbe r = some face
  probability : ∃ ranked : List FaceId, ranked.Perm q.eligible ∧ ranked.Pairwise (fun f g => ¬ q.rank g < q.rank f) ∧
    ∀ (j : ℕ) (face : FaceId), ranked[j]? = some face →
      volume {r : ℝ | 0 ≤ r ∧ r < 1 ∧ q.getFaceToProbe r = some face} =
        ENNReal.ofReal ((ranked.length + 1 - (j + 1)) / (ranked.length * (ranked.length + 1) / 2))

end Definitions

variable {q : ProbeQuery}

theorem getProbingProbability_eq {n j : ℕ} (hj : j < n) :
    (getProbingProbability n (1 + j) : ℝ) = (n + 1 - (j + 1)) / (n * (n + 1) / 2) := by
  unfold getProbingProbability
  have hhalf : (((n + 1) * n / 2 : ℕ) : ℝ) = n * (n + 1) / 2 := by
    rw [Nat.cast_div (by rw [Nat.mul_comm]; exact (Nat.even_mul_succ_self n).two_dvd) (by norm_num)]
    push_cast
    ring
  rw [hhalf, Nat.cast_sub (by omega)]
  push_cast
  ring

theorem getProbingProbability_nonneg (n rank : ℕ) : (0 : ℝ) ≤ getProbingProbability n rank := by
  unfold getProbingProbability
  positivity

theorem sum_getProbingProbability {n : ℕ} (hn : 0 < n) :
    ∑ j ∈ Finset.range n, (getProbingProbability n (1 + j) : ℝ) = 1 := by
  have hsum : ∑ j ∈ Finset.range n, ((n : ℝ) + 1 - (j + 1)) = n * (n + 1) / 2 := by
    have hgauss : ∀ m : ℕ, ∑ j ∈ Finset.range m, ((n : ℝ) + 1 - (j + 1)) = n * m - m * (m - 1) / 2 := by
      intro m
      induction m with
      | zero => simp
      | succ m ih =>
        rw [Finset.sum_range_succ, ih]
        push_cast
        ring
    rw [hgauss]
    ring
  have hpos : (0 : ℝ) < n * (n + 1) / 2 := by positivity
  rw [Finset.sum_congr rfl fun j hj => getProbingProbability_eq (Finset.mem_range.1 hj), ← Finset.sum_div, hsum,
    div_self hpos.ne']

/-! ### The set -/

theorem rankFaces_eq {hops : List FaceId} (h : ∀ face ∈ hops.filter q.isEligible, q.Measured face)
    (rankedFaces : OrdMap (Bool ×ₗ ℤ) FaceId) :
    q.rankFaces hops rankedFaces =
      .inr ((hops.filter q.isEligible).foldl (fun m face => m.insertNew (q.rank face) face) rankedFaces) := by
  induction hops generalizing rankedFaces with
  | nil => rfl
  | cons hopFace hops ih =>
    unfold rankFaces
    by_cases heligible : q.isEligible hopFace
    · rw [List.filter_cons_of_pos heligible] at h ⊢
      obtain ⟨info, hinfo, hmeasured⟩ := h hopFace List.mem_cons_self
      have hrank : q.rank hopFace = info.rank := by rw [rank, hinfo]; rfl
      rw [if_neg (by simp [heligible]), hinfo]
      dsimp only
      rw [if_neg hmeasured, ih fun face hface => h face (List.mem_cons_of_mem _ hface), List.foldl_cons, hrank]
    · rw [List.filter_cons_of_neg heligible] at h ⊢
      rw [if_pos (by simp [heligible])]
      exact ih h rankedFaces

theorem nodup_eligible (q : ProbeQuery) : q.eligible.Nodup := q.fibEntry.nodup.filter _

def ranked (q : ProbeQuery) : List FaceId := values (ofList q.rank q.eligible)

theorem nodup_ranked (q : ProbeQuery) : q.ranked.Nodup := nodup_values _

section

variable (h : ∀ face ∈ q.eligible, q.Measured face)

include h

theorem getFaceToProbe_eq {K : Type} [Field K] [LinearOrder K] (r : K) : q.getFaceToProbe r = chooseFace q.ranked r := by
  unfold getFaceToProbe
  rw [rankFaces_eq h]
  dsimp only
  split
  · next hempty =>
    have hnil : q.ranked = [] := by
      unfold ranked values ofList eligible
      rw [List.isEmpty_iff.1 hempty]
      rfl
    rw [hnil]
    rfl
  · rfl

theorem mem_ranked_of_getFaceToProbe {r : ℝ} {face : FaceId} (hface : q.getFaceToProbe r = some face) : face ∈ q.ranked := by
  rw [getFaceToProbe_eq h] at hface
  exact mem_of_pick hface

theorem volume_getFaceToProbe {j : ℕ} {face : FaceId} (hface : q.ranked[j]? = some face) :
    volume {r : ℝ | 0 ≤ r ∧ r < 1 ∧ q.getFaceToProbe r = some face} =
      ENNReal.ofReal ((q.ranked.length + 1 - (j + 1)) / (q.ranked.length * (q.ranked.length + 1) / 2)) := by
  obtain ⟨hj, -⟩ := List.getElem?_eq_some_iff.1 hface
  have hsum : ∑ i ∈ Finset.range (j + 1), (getProbingProbability q.ranked.length (1 + i) : ℝ) ≤ 1 := by
    rw [← sum_getProbingProbability (Nat.lt_of_le_of_lt (Nat.zero_le j) hj)]
    exact Finset.sum_le_sum_of_subset_of_nonneg (Finset.range_subset_range.2 hj) fun i _ _ =>
      getProbingProbability_nonneg _ _
  simp only [getFaceToProbe_eq h, chooseFace]
  rw [volume_pick q.nodup_ranked (getProbingProbability_nonneg _) hface hsum, getProbingProbability_eq hj]

end

/-- **Every eligible face has its share** just when no two of them have the same rank. -/
theorem probesEvery_iff (h : ∀ face ∈ q.eligible, q.Measured face) : q.ProbesEvery ↔ (q.eligible.map q.rank).Nodup := by
  constructor
  · intro hprobes
    by_contra hranks
    obtain ⟨face, hface, hmissing⟩ := exists_not_mem_values q.nodup_eligible hranks
    obtain ⟨r, -, -, hr⟩ := hprobes.covers face hface
    exact hmissing (mem_ranked_of_getFaceToProbe h hr)
  · intro hranks
    have hperm : q.ranked.Perm q.eligible := values_perm hranks
    refine ⟨fun hne r _ hr => ?_, fun face hface => ?_, q.ranked, hperm, ?_, fun j face => volume_getFaceToProbe h⟩
    · have hranked : q.ranked ≠ [] := fun hnil => hne (by rw [hnil] at hperm; exact hperm.symm.eq_nil)
      have hpick : (chooseFace q.ranked r).isSome := by
        apply pick_isSome hranked
        rw [sum_getProbingProbability (List.length_pos_iff.2 hranked), zero_add]
        exact hr.le
      obtain ⟨face, hface⟩ := Option.isSome_iff_exists.1 hpick
      rw [← getFaceToProbe_eq h] at hface
      exact ⟨face, hperm.subset (mem_ranked_of_getFaceToProbe h hface), hface⟩
    · obtain ⟨j, hj⟩ := List.mem_iff_getElem?.1 (hperm.symm.subset hface)
      have hlt : (j : ℝ) < q.ranked.length := by exact_mod_cast (List.getElem?_eq_some_iff.1 hj).1
      have hvolume := volume_getFaceToProbe h hj
      by_contra hnone
      have hempty : {r : ℝ | 0 ≤ r ∧ r < 1 ∧ q.getFaceToProbe r = some face} = ∅ :=
        Set.eq_empty_of_forall_notMem fun r hr => hnone ⟨r, hr⟩
      rw [hempty, measure_empty, eq_comm, ENNReal.ofReal_eq_zero] at hvolume
      have hshare : 0 < ((q.ranked.length : ℝ) + 1 - (j + 1)) / (q.ranked.length * (q.ranked.length + 1) / 2) := by
        have hpos : (0 : ℝ) < q.ranked.length := lt_of_le_of_lt (Nat.cast_nonneg j) hlt
        apply div_pos
        · linarith
        · positivity
      exact absurd hvolume (not_le.2 hshare)
    · exact (pairwise_values q.eligible).imp fun hlt => hlt.asymm

def twoFaces (a b : FaceInfo) : ProbeQuery where
  faces _ := { scope := .nonLocal, linkType := .pointToPoint }
  inFace := 0
  interest := { name := Tables.nameAB, nonce := 1 }
  fibEntry := ⟨some Tables.nameA, [⟨1, 0⟩, ⟨2, 0⟩, ⟨3, 0⟩], by decide, by decide⟩
  faceUsed := 1
  faceInfo face := if face = 2 then some a else if face = 3 then some b else none

theorem measured_twoFaces {a b : FaceInfo} (ha : a.lastRtt ≠ FaceInfo.RTT_NO_MEASUREMENT)
    (hb : b.lastRtt ≠ FaceInfo.RTT_NO_MEASUREMENT) : ∀ face ∈ (twoFaces a b).eligible, (twoFaces a b).Measured face := by
  have heligible : (twoFaces a b).eligible = [2, 3] := rfl
  intro face hface
  rw [heligible, List.mem_cons, List.mem_singleton] at hface
  rcases hface with rfl | rfl
  · exact ⟨a, rfl, ha⟩
  · exact ⟨b, rfl, hb⟩

theorem probesEvery_twoFaces :
    (twoFaces { sRtt := 10, lastRtt := 10 } { sRtt := 20, lastRtt := 20 }).ProbesEvery ↔
      ((twoFaces { sRtt := 10, lastRtt := 10 } { sRtt := 20, lastRtt := 20 }).eligible.map
        (twoFaces { sRtt := 10, lastRtt := 10 } { sRtt := 20, lastRtt := 20 }).rank).Nodup :=
  probesEvery_iff (measured_twoFaces (by decide) (by decide))

/-- Two faces that timed out before any Data: both have the SRTT -1, and only one of them is in the set. -/
theorem not_probesEvery_timeouts : ¬ (twoFaces { lastRtt := -2 } { lastRtt := -2 }).ProbesEvery := by
  intro hprobes
  obtain ⟨r, -, -, hr⟩ := hprobes.covers 3 (by decide)
  have hmem := mem_ranked_of_getFaceToProbe (measured_twoFaces (by decide) (by decide)) hr
  revert hmem
  decide

end ProbeQuery

end Ns3Ndn
