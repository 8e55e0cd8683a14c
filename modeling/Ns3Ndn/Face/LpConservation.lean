import Ns3Ndn.Face.LpWindow

/-!
# Every network packet is accounted for

A network packet given to `handleOutgoing` has fragments in the map until it is counted, once, as
acknowledged, as retransmitted or as given up. The lists of fragments kept in the `NetPkt` objects
stay in step with the map all the time.

* `Accounts`: the bookkeeping between the map, the `NetPkt` lists and the counters;
* **`run_conserved`**: conservation over every run;
* **`run_window`**: the start of the window over every run.
-/

namespace Ns3Ndn.LpReliability

open OrdLib RunLib LpPacket

variable {s t : LpReliability}

/-! ## The invariant -/

/-- The network packet a stored fragment belongs to. -/
def owner (s : LpReliability) (txSeq : ℕ) : Option ℕ :=
  (s.unackedFrags.find? txSeq).map UnackedFrag.netPkt

/-- How often a network packet was counted. -/
def timesCounted (s : LpReliability) (id : ℕ) : ℕ := s.counted.countP (·.1 == id)

/-- The network packet is not counted, and lists its own stored fragments. -/
def Live (s : LpReliability) (id : ℕ) : Prop :=
  s.timesCounted id = 0 ∧ (s.netPkts id).unackedFrags.Nodup ∧
    ∀ k ∈ (s.netPkts id).unackedFrags, s.owner k = some id

/-- The network packet was counted once, and has no stored fragment. -/
def Done (s : LpReliability) (id : ℕ) : Prop :=
  s.timesCounted id = 1 ∧ ∀ k, s.owner k ≠ some id

/-- **The accounts.** -/
structure Accounts (s : LpReliability) : Prop where
  owned : ∀ {k id}, s.owner k = some id → id < s.nNetPkts ∧ k ∈ (s.netPkts id).unackedFrags
  either : ∀ {id}, id < s.nNetPkts → s.Live id ∨ s.Done id
  fragment : ∀ {id}, id < s.nNetPkts → (s.netPkts id).pkt.has tlvFragment
  ledger : ∀ {c}, c ∈ s.counted → c.1 < s.nNetPkts
  counter : ∀ c, s.counter c = s.counted.countP (·.2 == c)

/-- A packet that was not counted has a fragment. -/
def Filled (s : LpReliability) : Prop :=
  ∀ id, id < s.nNetPkts → s.timesCounted id = 0 → (s.netPkts id).unackedFrags ≠ []

/-- What holds between two events. -/
structure Inv (s : LpReliability) : Prop where
  window : Window s
  accounts : Accounts s
  filled : Filled s

theorem has_iff_owner {k : ℕ} : s.unackedFrags.Has k ↔ ∃ id, s.owner k = some id := by
  simp [OrdMap.Has, owner]

theorem Window.congr (h : Window s) (hmap : t.unackedFrags = s.unackedFrags)
    (hfirst : t.firstUnackedFrag = s.firstUnackedFrag) (hlast : t.lastTxSeqNo = s.lastTxSeqNo)
    (hn : t.nAssigned = s.nAssigned) : Window t := by
  have hage : t.age = s.age := by funext k; rw [age, age, hlast]
  refine ⟨hlast ▸ h.last_lt, ?_, ?_, ?_, ?_⟩
  · rw [hmap]
    exact h.key_lt
  · rw [hmap, hage, hn]
    exact h.assigned
  · rw [hmap, hfirst]
    exact h.first_none
  · rw [hmap, hfirst, hage]
    exact h.first_some

theorem timesCounted_count {id id' : ℕ} {c : Counter} :
    (s.count id c).timesCounted id' = s.timesCounted id' + if id = id' then 1 else 0 := by
  rw [timesCounted, timesCounted, count, List.countP_append, List.countP_singleton]
  simp only [beq_iff_eq]

theorem counter_count {id : ℕ} {c : Counter} (h : ∀ c, s.counter c = s.counted.countP (·.2 == c))
    (c' : Counter) : (s.count id c).counter c' = (s.count id c).counted.countP (·.2 == c') := by
  rw [count, List.countP_append, List.countP_singleton, ← h c']
  by_cases hc : c = c'
  · subst hc
    simp
  · simp [hc, Function.update_of_ne (Ne.symm hc)]

/-- What the deletion of fragments does to the accounts. -/
structure Erased (s : LpReliability) (ks : List ℕ) (t : LpReliability) : Prop where
  owner : ∀ j, t.owner j = if j ∈ ks then none else s.owner j
  netPkts : t.netPkts = s.netPkts
  nNetPkts : t.nNetPkts = s.nNetPkts
  counted : t.counted = s.counted
  counter : t.counter = s.counter

theorem Erased.trans {u : LpReliability} {ks ks' : List ℕ} (h : Erased s ks t)
    (h' : Erased t ks' u) : Erased s (ks ++ ks') u where
  owner j := by
    rw [h'.owner, h.owner]
    simp only [List.mem_append]
    by_cases h1 : j ∈ ks <;> by_cases h2 : j ∈ ks' <;> simp [h1, h2]
  netPkts := h'.netPkts.trans h.netPkts
  nNetPkts := h'.nNetPkts.trans h.nNetPkts
  counted := h'.counted.trans h.counted
  counter := h'.counter.trans h.counter

theorem Erased.timesCounted {ks : List ℕ} (h : Erased s ks t) (id : ℕ) :
    t.timesCounted id = s.timesCounted id := by
  rw [LpReliability.timesCounted, LpReliability.timesCounted, h.counted]

theorem Window.delete (h : Window s) {k : ℕ} (hk : ∃ id, s.owner k = some id) :
    ∃ t, s.deleteUnackedFrag k = .ok t ∧ Window t ∧ Erased s [k] t := by
  obtain ⟨it, hdel, hw⟩ := h.deleteUnackedFrag (has_iff_owner.mpr hk)
  refine ⟨_, hdel, hw, fun j => ?_, rfl, rfl, rfl, rfl⟩
  change ((s.unackedFrags.erase k).find? j).map UnackedFrag.netPkt = _
  rw [OrdMap.find?_erase, owner, if_congr List.mem_singleton rfl rfl, if_congr eq_comm rfl rfl]
  split_ifs <;> rfl

theorem Accounts.live (h : Accounts s) {k id : ℕ} (hk : s.owner k = some id) : s.Live id := by
  refine (h.either (h.owned hk).1).resolve_right fun hdone => ?_
  exact hdone.2 k hk

/-- A change that concerns one network packet only. -/
theorem Accounts.edit (h : Accounts s) {id : ℕ} (hn : t.nNetPkts = s.nNetPkts)
    (hid : id < s.nNetPkts)
    (howner : ∀ k id', id' ≠ id → (t.owner k = some id' ↔ s.owner k = some id'))
    (hnet : ∀ id', id' ≠ id → t.netPkts id' = s.netPkts id')
    (htimes : ∀ id', id' ≠ id → t.timesCounted id' = s.timesCounted id')
    (hlisted : ∀ k, t.owner k = some id → k ∈ (t.netPkts id).unackedFrags)
    (hstate : t.Live id ∨ t.Done id) (hpkt : (t.netPkts id).pkt = (s.netPkts id).pkt)
    (hledger : ∀ {c}, c ∈ t.counted → c.1 < s.nNetPkts)
    (hcounter : ∀ c, t.counter c = t.counted.countP (·.2 == c)) : Accounts t := by
  refine ⟨fun {k id'} hk => ?_, fun {id'} hid' => ?_, fun {id'} hid' => ?_, ?_, hcounter⟩
  · rw [hn]
    by_cases he : id' = id
    · subst he
      exact ⟨hid, hlisted k hk⟩
    · rw [hnet id' he]
      exact h.owned ((howner k id' he).mp hk)
  · rw [hn] at hid'
    by_cases he : id' = id
    · exact he ▸ hstate
    · rcases h.either hid' with hl | hd
      · left
        rw [Live, hnet id' he, htimes id' he]
        exact ⟨hl.1, hl.2.1, fun k hk => (howner k id' he).mpr (hl.2.2 k hk)⟩
      · right
        rw [Done, htimes id' he]
        exact ⟨hd.1, fun k hk => hd.2 k ((howner k id' he).mp hk)⟩
  · rw [hn] at hid'
    by_cases he : id' = id
    · rw [he, hpkt]
      exact h.fragment hid
    · rw [hnet id' he]
      exact h.fragment hid'
  · rw [hn]
    exact hledger

theorem Filled.edit (h : Filled s) {id : ℕ} (hn : t.nNetPkts = s.nNetPkts)
    (hnet : ∀ id', id' ≠ id → t.netPkts id' = s.netPkts id')
    (htimes : ∀ id', id' ≠ id → t.timesCounted id' = s.timesCounted id')
    (hid : t.timesCounted id = 0 → (t.netPkts id).unackedFrags ≠ []) : Filled t := by
  intro id' hlt
  rw [hn] at hlt
  by_cases he : id' = id
  · exact he ▸ hid
  · rw [hnet id' he, htimes id' he]
    exact h id' hlt

/-- The accounts do not read what a fragment is, only whose it is. -/
theorem Inv.congr (h : Inv s) (hw : Window t) (howner : t.owner = s.owner)
    (hnet : t.netPkts = s.netPkts) (hn : t.nNetPkts = s.nNetPkts) (hc : t.counted = s.counted)
    (hcounter : t.counter = s.counter) : Inv t := by
  have htimes : t.timesCounted = s.timesCounted := by
    funext id
    rw [timesCounted, timesCounted, hc]
  refine ⟨hw, ⟨?_, ?_, ?_, ?_, ?_⟩, ?_⟩
  · rw [howner, hnet, hn]
    exact h.accounts.owned
  · simp only [Live, Done, howner, hnet, hn, htimes]
    exact h.accounts.either
  · rw [hnet, hn]
    exact h.accounts.fragment
  · rw [hn, hc]
    exact h.accounts.ledger
  · rw [hcounter, hc]
    exact h.accounts.counter
  · unfold Filled
    rw [hnet, hn, htimes]
    exact h.filled

theorem replace_perm {l : List ℕ} {x : ℕ} (y : ℕ) (hx : x ∈ l) :
    (l.replace x y).Perm (y :: l.erase x) := by
  obtain ⟨l₁, l₂, rfl, hl₁⟩ := List.eq_append_cons_of_mem hx
  rw [List.replace_append_right hl₁, List.erase_append_right _ hl₁]
  simp

theorem swapRemove_perm {l : List ℕ} {x : ℕ} (hx : x ∈ l) : (swapRemove x l).Perm (l.erase x) := by
  obtain ⟨l₁, l₂, rfl, hl₁⟩ := List.eq_append_cons_of_mem hx
  rw [swapRemove, List.replace_append_right hl₁, List.erase_append_right _ hl₁]
  rcases List.eq_nil_or_concat l₂ with rfl | ⟨l₃, z, rfl⟩
  · simp
  · have hlast : (l₁ ++ x :: (l₃ ++ [z])).getLast?.getD x = z := by
      rw [show l₁ ++ x :: (l₃ ++ [z]) = (l₁ ++ x :: l₃) ++ [z] by simp, List.getLast?_concat,
        Option.getD_some]
    rw [List.concat_eq_append, hlast]
    have hdrop : (l₁ ++ (x :: (l₃ ++ [z])).replace x z).dropLast = l₁ ++ z :: l₃ := by
      rw [show (x :: (l₃ ++ [z])).replace x z = z :: (l₃ ++ [z]) by simp,
        show l₁ ++ z :: (l₃ ++ [z]) = (l₁ ++ z :: l₃) ++ [z] by simp, List.dropLast_concat]
    rw [hdrop]
    simpa using (List.perm_append_singleton z l₃).symm.append_left l₁

/-! ## Acknowledgement -/

section Release

variable (s) (id k : ℕ)

theorem release_owner : (s.release id k).owner = s.owner := by
  unfold release
  dsimp only
  split_ifs <;> rfl

theorem release_nNetPkts : (s.release id k).nNetPkts = s.nNetPkts := by
  unfold release
  dsimp only
  split_ifs <;> rfl

theorem release_netPkts : (s.release id k).netPkts = Function.update s.netPkts id
    { s.netPkts id with unackedFrags := swapRemove k (s.netPkts id).unackedFrags } := by
  unfold release
  dsimp only
  split_ifs <;> rfl

theorem release_ledger (h : id < s.nNetPkts) (hs : ∀ {c}, c ∈ s.counted → c.1 < s.nNetPkts)
    {c : ℕ × Counter} (hc : c ∈ (s.release id k).counted) : c.1 < s.nNetPkts := by
  have hadd : ∀ x, c ∈ s.counted ++ [(id, x)] → c.1 < s.nNetPkts := fun x hx => by
    rcases List.mem_append.mp hx with hx | hx
    · exact hs hx
    · rw [List.mem_singleton.mp hx]
      exact h
  unfold LpReliability.release at hc
  dsimp only at hc
  split_ifs at hc
  · exact hadd _ hc
  · exact hadd _ hc
  · exact hs hc

theorem release_timesCounted (id' : ℕ) : (s.release id k).timesCounted id' = s.timesCounted id' +
    if (swapRemove k (s.netPkts id).unackedFrags).isEmpty ∧ id = id' then 1 else 0 := by
  unfold release
  simp only [modifyNetPkt, Function.update_self]
  by_cases he : (swapRemove k (s.netPkts id).unackedFrags).isEmpty
  · rw [if_pos he, timesCounted_count]
    simp only [he, true_and]
    rfl
  · rw [if_neg he, if_neg fun hx => he hx.1]
    rfl

theorem release_counter (h : ∀ c, s.counter c = s.counted.countP (·.2 == c)) (c : Counter) :
    (s.release id k).counter c = (s.release id k).counted.countP (·.2 == c) := by
  unfold release
  dsimp only
  split_ifs
  · exact counter_count h c
  · exact counter_count h c
  · exact h c

end Release

theorem Window.release (h : Window s) (id k : ℕ) : Window (s.release id k) := by
  refine h.congr ?_ ?_ ?_ ?_ <;> unfold LpReliability.release <;> dsimp only <;> split_ifs <;> rfl

/-- **An acknowledged fragment leaves its packet; the last one has the packet counted.** -/
theorem Inv.onLpPacketAcknowledged (h : Inv s) {k : ℕ} (hk : s.unackedFrags.Has k) :
    ∃ t, s.onLpPacketAcknowledged k = .ok t ∧ Inv t ∧
      ∀ j, j ≠ k → s.unackedFrags.Has j → t.unackedFrags.Has j := by
  obtain ⟨frag, hfrag⟩ := hk
  have howner : s.owner k = some frag.netPkt := by rw [owner, hfrag, Option.map_some]
  obtain ⟨hlt, hlisted⟩ := h.accounts.owned howner
  obtain ⟨hzero, hnd, hall⟩ := h.accounts.live howner
  have hmem : ∀ {j}, j ∈ swapRemove k (s.netPkts frag.netPkt).unackedFrags ↔
      j ≠ k ∧ j ∈ (s.netPkts frag.netPkt).unackedFrags := fun {j} => by
    rw [(swapRemove_perm hlisted).mem_iff, hnd.mem_erase_iff]
  obtain ⟨t, ht, hw, he⟩ := (h.window.release frag.netPkt k).delete
    ⟨frag.netPkt, by rw [release_owner, howner]⟩
  have hown : ∀ j, t.owner j = if k = j then none else s.owner j := fun j => by
    rw [he.owner, release_owner, if_congr List.mem_singleton rfl rfl, if_congr eq_comm rfl rfl]
  have hnet : t.netPkts frag.netPkt = { s.netPkts frag.netPkt with
      unackedFrags := swapRemove k (s.netPkts frag.netPkt).unackedFrags } := by
    rw [he.netPkts, release_netPkts, Function.update_self]
  have hnet' : ∀ id, id ≠ frag.netPkt → t.netPkts id = s.netPkts id := fun id hid => by
    rw [he.netPkts, release_netPkts, Function.update_of_ne hid]
  have htimes : ∀ id, t.timesCounted id = s.timesCounted id +
      if (swapRemove k (s.netPkts frag.netPkt).unackedFrags).isEmpty ∧ frag.netPkt = id then 1
      else 0 := fun id => by
    rw [he.timesCounted, release_timesCounted]
  have htimes' : ∀ id, id ≠ frag.netPkt → t.timesCounted id = s.timesCounted id := fun id hid => by
    rw [htimes, if_neg fun hx => hid hx.2.symm, Nat.add_zero]
  have hn : t.nNetPkts = s.nNetPkts := by rw [he.nNetPkts, release_nNetPkts]
  have hlist : ∀ j, t.owner j = some frag.netPkt →
      j ∈ swapRemove k (s.netPkts frag.netPkt).unackedFrags := fun j hj => by
    rw [hown] at hj
    split_ifs at hj with hkj
    exact hmem.mpr ⟨fun hx => hkj hx.symm, (h.accounts.owned hj).2⟩
  refine ⟨t, ?_, ⟨hw, h.accounts.edit hn hlt (fun j id hid => ?_) hnet' htimes' ?_ ?_ ?_ ?_ ?_,
    h.filled.edit hn hnet' htimes' fun hx => ?_⟩, fun j hj hhas => ?_⟩
  · simp only [LpReliability.onLpPacketAcknowledged, deref, hfrag, Except.bind, if_pos hlisted, ht]
  · rw [hown]
    split_ifs with hkj
    · rw [← hkj, howner]
      exact iff_of_false (by simp) fun hx => hid (Option.some.inj hx).symm
    · rfl
  · rw [hnet]
    exact hlist
  · by_cases hempty : (swapRemove k (s.netPkts frag.netPkt).unackedFrags).isEmpty
    · refine Or.inr ⟨by rw [htimes, hzero, if_pos ⟨hempty, rfl⟩], fun j hj => ?_⟩
      rw [List.isEmpty_iff] at hempty
      exact absurd (hlist j hj) (hempty ▸ List.not_mem_nil)
    · refine Or.inl ⟨by rw [htimes, hzero, if_neg fun hx => hempty hx.1], ?_, fun j hj => ?_⟩
      · rw [hnet]
        exact (swapRemove_perm hlisted).nodup_iff.mpr (hnd.erase k)
      · rw [hnet] at hj
        obtain ⟨hjk, hj⟩ := hmem.mp hj
        rw [hown, if_neg (Ne.symm hjk), hall j hj]
  · rw [hnet]
  · rw [he.counted]
    exact release_ledger s _ k hlt h.accounts.ledger
  · rw [he.counted, he.counter]
    exact release_counter s _ k h.accounts.counter
  · rw [htimes, hzero, Nat.zero_add] at hx
    rw [hnet]
    intro hnil
    rw [if_pos ⟨List.isEmpty_iff.mpr hnil, rfl⟩] at hx
    cases hx
  · rw [has_iff_owner] at hhas ⊢
    rw [hown, if_neg (Ne.symm hj)]
    exact hhas

/-! ## Losses -/

theorem Window.dropSiblings {k : ℕ} (ks removed : List ℕ) (h : Window s) (hnd : ks.Nodup)
    (hks : ∀ j ∈ ks, ∃ id, s.owner j = some id) :
    ∃ t, ks.foldlM (dropSibling k) (removed, s) = .ok (removed ++ ks.filter (· ≠ k), t) ∧
      Window t ∧ Erased s (ks.filter (· ≠ k)) t := by
  induction ks generalizing s removed with
  | nil =>
    refine ⟨s, by rw [List.filter_nil, List.append_nil]; rfl, h, fun j => ?_, rfl, rfl, rfl, rfl⟩
    rw [List.filter_nil, if_neg List.not_mem_nil]
  | cons j ks ih =>
    obtain ⟨hj, hnd⟩ := List.nodup_cons.mp hnd
    rw [List.foldlM_cons]
    by_cases hjk : j = k
    · have hskip : dropSibling k (removed, s) j = .ok (removed, s) := if_neg (not_not.mpr hjk)
      obtain ⟨t, ht, hw, he⟩ := ih removed h hnd fun i hi => hks i (List.mem_cons_of_mem _ hi)
      refine ⟨t, ?_, hw, ?_⟩ <;> rw [List.filter_cons_of_neg (by simpa using hjk)]
      · rw [hskip]
        exact ht
      · exact he
    · obtain ⟨u, hu, hwu, heu⟩ := h.delete (hks j List.mem_cons_self)
      have hstep : dropSibling k (removed, s) j = .ok (removed ++ [j], u) := by
        rw [dropSibling, if_pos hjk, hu]
        rfl
      obtain ⟨t, ht, hw, he⟩ := ih (removed ++ [j]) hwu hnd fun i hi => by
        have hij : i ∉ [j] := fun hx => hj (List.mem_singleton.mp hx ▸ hi)
        simp only [heu.owner, if_neg hij]
        exact hks i (List.mem_cons_of_mem _ hi)
      refine ⟨t, ?_, hw, ?_⟩ <;> rw [List.filter_cons_of_pos (by simpa using hjk)]
      · rw [hstep, List.append_cons removed j (ks.filter _)]
        exact ht
      · exact heu.trans he

/-- **A packet that is given up loses all its fragments and is counted.** -/
theorem Inv.drop (h : Inv s) {k id : ℕ} (hk : s.owner k = some id) :
    ∃ r, s.drop k id = .ok r ∧ Inv r.2 ∧ k ∈ r.1 ∧
      ∀ j, s.unackedFrags.Has j → j ∈ r.1 ∨ r.2.unackedFrags.Has j := by
  obtain ⟨hlt, hlisted⟩ := h.accounts.owned hk
  obtain ⟨hzero, hnd, hall⟩ := h.accounts.live hk
  obtain ⟨s₁, h₁, hw₁, he₁⟩ := h.window.dropSiblings (k := k) (s.netPkts id).unackedFrags [] hnd
    fun j hj => ⟨id, hall j hj⟩
  have hk₁ : s₁.owner k = some id := by
    rw [he₁.owner, if_neg (by simp), hk]
  have hw₂ : Window (s₁.count id .nRetxExhausted) := hw₁.congr rfl rfl rfl rfl
  obtain ⟨t, ht, hw, he⟩ := hw₂.delete ⟨id, hk₁⟩
  have hown : ∀ j, t.owner j = if j ∈ (s.netPkts id).unackedFrags then none else s.owner j :=
    fun j => by
      rw [he.owner]
      change (if j ∈ [k] then none else s₁.owner j) = _
      rw [he₁.owner]
      by_cases hjk : j = k
      · simp [hjk, hlisted]
      · simp [hjk]
  have hnet : t.netPkts = s.netPkts := he.netPkts.trans he₁.netPkts
  have htimes : ∀ id', t.timesCounted id' = s.timesCounted id' + if id = id' then 1 else 0 :=
    fun id' => by
      rw [he.timesCounted, timesCounted_count, he₁.timesCounted]
  have htimes' : ∀ id', id' ≠ id → t.timesCounted id' = s.timesCounted id' := fun id' hid => by
    rw [htimes, if_neg (Ne.symm hid), Nat.add_zero]
  have hn : t.nNetPkts = s.nNetPkts := he.nNetPkts.trans he₁.nNetPkts
  have hgone : ∀ j, t.owner j ≠ some id := fun j hj => by
    rw [hown] at hj
    split_ifs at hj with hx
    exact hx (h.accounts.owned hj).2
  refine ⟨((s.netPkts id).unackedFrags.filter (· ≠ k) ++ [k], t), ?_,
    ⟨hw, h.accounts.edit hn hlt (fun j id' hid => ?_) (fun id' _ => by rw [hnet]) htimes'
      (fun j hj => absurd hj (hgone j)) (Or.inr ⟨by rw [htimes, hzero, if_pos rfl], hgone⟩)
      (by rw [hnet]) (fun {c} hc => ?_) ?_,
    h.filled.edit hn (fun id' _ => by rw [hnet]) htimes' fun hx => ?_⟩, by simp, fun j hj => ?_⟩
  · have hfrag : ((s₁.count id .nRetxExhausted).netPkts id).pkt.has tlvFragment := by
      change (s₁.netPkts id).pkt.has tlvFragment
      rw [he₁.netPkts]
      exact h.accounts.fragment hlt
    simp only [LpReliability.drop, h₁, Except.bind, hfrag, not_true_eq_false, and_false, if_false, ht,
      Except.map, List.nil_append]
  · rw [hown]
    split_ifs with hx
    · rw [hall j hx]
      exact iff_of_false (by simp) fun hy => hid (Option.some.inj hy).symm
    · rfl
  · rw [he.counted] at hc
    rcases List.mem_append.mp hc with hc | hc
    · rw [he₁.counted] at hc
      exact h.accounts.ledger hc
    · rw [List.mem_singleton.mp hc]
      exact hlt
  · rw [he.counter, he.counted]
    refine counter_count fun c => ?_
    rw [he₁.counter, he₁.counted]
    exact h.accounts.counter c
  · rw [htimes, if_pos rfl] at hx
    cases hx
  · by_cases hx : j ∈ (s.netPkts id).unackedFrags
    · left
      by_cases hjk : j = k
      · simp [hjk]
      · simp [hx, hjk]
    · right
      rw [has_iff_owner] at hj ⊢
      rw [hown, if_neg hx]
      exact hj

section MoveFrag

variable {k new : ℕ} {frag : UnackedFrag}

def movedFrag (s : LpReliability) (new : ℕ) (frag : UnackedFrag) : UnackedFrag where
  pkt := frag.pkt.set tlvTxSequence (encodeSequence new)
  retxCount := frag.retxCount + 1
  netPkt := frag.netPkt
  assigned := s.nAssigned

theorem moveFrag_find? (hfresh : s.unackedFrags.find? new = none) (j : ℕ) :
    (s.moveFrag k new frag).unackedFrags.find? j =
      if new = j then some (s.movedFrag new frag) else s.unackedFrags.find? j := by
  change ((s.unackedFrags.insertNew new _).modify new _).find? j = _
  rw [OrdMap.find?_modify, OrdMap.find?_insertNew]
  by_cases hj : new = j
  · subst hj
    simp [hfresh, movedFrag]
  · simp [hj]

theorem moveFrag_owner (hfresh : s.unackedFrags.find? new = none) (j : ℕ) :
    (s.moveFrag k new frag).owner j = if new = j then some frag.netPkt else s.owner j := by
  rw [owner, moveFrag_find? hfresh, owner]
  split_ifs <;> rfl

end MoveFrag

/-- **A retransmitted fragment keeps its place in its packet under the new number.** -/
theorem Inv.retransmit (h : Inv s) {k : ℕ} {frag : UnackedFrag}
    (hfrag : s.unackedFrags.find? k = some frag) :
    Yields Exhausted (fun r => Inv r.2 ∧ k ∈ r.1 ∧
      ∀ j, s.unackedFrags.Has j → j ∈ r.1 ∨ r.2.unackedFrags.Has j) (s.retransmit k frag) := by
  have hk : s.owner k = some frag.netPkt := by rw [owner, hfrag, Option.map_some]
  obtain ⟨hlt, hlisted⟩ := h.accounts.owned hk
  obtain ⟨hzero, hnd, hall⟩ := h.accounts.live hk
  refine h.window.assignTxSequence.bind fun a ⟨ha, hfresh, hadv⟩ => ?_
  subst ha
  set new := s.advance.lastTxSeqNo with hnew
  have hnk : new ≠ k := fun he => by
    rw [he, hfrag] at hfresh
    cases hfresh
  have hw₁ : Window (s.advance.moveFrag k new frag) := by
    refine hadv.store rfl (moveFrag_find? hfresh) rfl rfl ?_
    obtain ⟨f, -, hf, -⟩ := h.window.first ⟨frag, hfrag⟩
    change s.firstUnackedFrag = s.firstUnackedFrag.or _
    rw [hf, Option.some_or]
  have hown₁ : ∀ j, (s.advance.moveFrag k new frag).owner j =
      if new = j then some frag.netPkt else s.advance.owner j := moveFrag_owner hfresh
  obtain ⟨t, ht, hw, he⟩ := hw₁.delete (k := k) ⟨frag.netPkt, by rw [hown₁, if_neg hnk]; exact hk⟩
  have hown : ∀ j, t.owner j = if j = k then none else if new = j then some frag.netPkt
      else s.owner j := fun j => by
    rw [he.owner, if_congr List.mem_singleton rfl rfl, hown₁]
    rfl
  have hnet : t.netPkts = Function.update s.netPkts frag.netPkt { s.netPkts frag.netPkt with
      didRetx := true, unackedFrags := (s.netPkts frag.netPkt).unackedFrags.replace k new } :=
    he.netPkts
  have hself : t.netPkts frag.netPkt = { s.netPkts frag.netPkt with
      didRetx := true, unackedFrags := (s.netPkts frag.netPkt).unackedFrags.replace k new } := by
    rw [hnet, Function.update_self]
  have hnet' : ∀ id, id ≠ frag.netPkt → t.netPkts id = s.netPkts id := fun id hid => by
    rw [hnet, Function.update_of_ne hid]
  have htimes : ∀ id, t.timesCounted id = s.timesCounted id := he.timesCounted
  have hperm := replace_perm new hlisted
  have hmem : ∀ {j}, j ∈ (s.netPkts frag.netPkt).unackedFrags.replace k new ↔
      j = new ∨ j ≠ k ∧ j ∈ (s.netPkts frag.netPkt).unackedFrags := fun {j} => by
    rw [hperm.mem_iff, List.mem_cons, hnd.mem_erase_iff]
  have hnotin : new ∉ (s.netPkts frag.netPkt).unackedFrags := fun hx => by
    have h1 := hall new hx
    rw [owner, hfresh] at h1
    cases h1
  have hlist : ∀ j, t.owner j = some frag.netPkt → j ∈ (t.netPkts frag.netPkt).unackedFrags :=
    fun j hj => by
      rw [hself]
      rw [hown] at hj
      split_ifs at hj with h1 h2
      · exact hmem.mpr (Or.inl h2.symm)
      · exact hmem.mpr (Or.inr ⟨h1, (h.accounts.owned hj).2⟩)
  have hlive : t.Live frag.netPkt := by
    refine ⟨by rw [htimes, hzero], ?_, fun j hj => ?_⟩
    · rw [hself]
      exact hperm.nodup_iff.mpr (List.nodup_cons.mpr
        ⟨fun hx => hnotin (List.mem_of_mem_erase hx), hnd.erase k⟩)
    · rw [hself] at hj
      rw [hown]
      rcases hmem.mp hj with rfl | ⟨hjk, hj⟩
      · rw [if_neg hnk, if_pos rfl]
      · rw [if_neg hjk, if_neg fun hx : new = j => hnotin (hx ▸ hj), hall j hj]
  have hinv : Inv t := by
    refine ⟨hw, h.accounts.edit he.nNetPkts hlt (fun j id hid => ?_) hnet'
      (fun id _ => htimes id) hlist (Or.inl hlive) (by rw [hself]) ?_ ?_,
      h.filled.edit he.nNetPkts hnet' (fun id _ => htimes id) fun _ => ?_⟩
    · rw [hown]
      split_ifs with h1 h2
      · rw [h1, hk]
        exact iff_of_false (by simp) fun hx => hid (Option.some.inj hx).symm
      · rw [← h2, owner, hfresh]
        exact iff_of_false (fun hx => hid (Option.some.inj hx).symm) (by simp)
      · rfl
    · rw [he.counted]
      exact h.accounts.ledger
    · rw [he.counted, he.counter]
      exact h.accounts.counter
    · rw [hself]
      exact List.ne_nil_of_mem (hmem.mpr (Or.inl rfl))
  have hif : k ∈ (s.advance.netPkts frag.netPkt).unackedFrags := hlisted
  simp only [if_pos hif, ht, Except.map]
  refine ⟨hinv.congr (hw.congr rfl rfl rfl rfl) rfl rfl rfl rfl rfl, List.mem_singleton_self k,
    fun j hj => ?_⟩
  by_cases hjk : j = k
  · exact Or.inl (hjk ▸ List.mem_singleton_self k)
  · right
    change t.unackedFrags.Has j
    rw [has_iff_owner] at hj ⊢
    rw [hown, if_neg hjk]
    split_ifs
    · exact ⟨_, rfl⟩
    · exact hj

/-- **A lost fragment that is stored is resent or given up; what else leaves the map is reported.** -/
theorem Inv.onLpPacketLost (h : Inv s) (options : Options) {k : ℕ} (hk : s.unackedFrags.Has k) :
    Yields Exhausted (fun r => Inv r.2 ∧ k ∈ r.1 ∧
      ∀ j, s.unackedFrags.Has j → j ∈ r.1 ∨ r.2.unackedFrags.Has j)
      (s.onLpPacketLost options k) := by
  obtain ⟨frag, hfrag⟩ := hk
  simp only [LpReliability.onLpPacketLost, hfrag]
  split_ifs
  · obtain ⟨r, hr, hinv⟩ := h.drop (k := k) (by rw [owner, hfrag, Option.map_some])
    rw [hr]
    exact hinv
  · exact h.retransmit hfrag

/-- **One Ack.** The fragments found lost are stored until they are reported as removed. -/
theorem Inv.processAck (h : Inv s) (options : Options) (ack : ℕ) :
    Yields Exhausted Inv (processAck options s ack) := by
  unfold LpReliability.processAck
  cases hack : s.unackedFrags.find? ack with
  | none => exact h
  | some frag =>
    obtain ⟨lost, m, hfind, hm, hlost⟩ := h.window.findLostLpPackets options hack
    have hhas : ∀ {j}, m.Has j ↔ s.unackedFrags.Has j := fun {j} => by
      rw [OrdMap.Has, OrdMap.Has, hm]
      simp
    have howner : ∀ j, (m.find? j).map UnackedFrag.netPkt = s.owner j := fun j => by
      rw [hm, owner, Option.map_map]
      congr 1
      funext f
      rw [Function.comp_apply]
      split_ifs <;> rfl
    have hw : Window { s with unackedFrags := m } := by
      refine ⟨h.window.last_lt, fun hj => h.window.key_lt (hhas.mp hj), fun {j f} hj => ?_,
        fun hf j hj => h.window.first_none hf j (hhas.mp hj), fun {f} hf => ?_⟩
      · change m.find? j = some f at hj
        rw [hm, Option.map_eq_some_iff] at hj
        obtain ⟨f', hf', rfl⟩ := hj
        have h1 := h.window.assigned hf'
        split_ifs <;> exact h1
      · obtain ⟨h1, h2⟩ := h.window.first_some hf
        exact ⟨hhas.mpr h1, fun j hj => h2 j (hhas.mp hj)⟩
    have hinv : Inv { s with unackedFrags := m } :=
      h.congr hw (funext howner) rfl rfl rfl rfl
    obtain ⟨t, ht, hinvt, hkeep⟩ := hinv.onLpPacketAcknowledged (hhas.mpr ⟨frag, hack⟩)
    simp only [hfind, Except.bind, ht]
    refine Yields.map (P := fun acc => Inv acc.2 ∧
      ∀ j ∈ lost, j ∈ acc.1 ∨ acc.2.unackedFrags.Has j) ?_ fun acc hacc => hacc.1
    refine Yields.foldlM ⟨hinvt, fun j hj => Or.inr ?_⟩ fun j hj acc hacc => ?_
    · obtain ⟨f, hf, hlt, -⟩ := (hlost j).mp hj
      refine hkeep j ?_ (hhas.mpr ⟨f, hf⟩)
      rintro rfl
      rw [hack] at hf
      cases hf
      exact lt_irrefl _ hlt
    · obtain ⟨hacc, hrest⟩ := hacc
      unfold resendLost
      split_ifs with hmem
      · exact ⟨hacc, hrest⟩
      · refine (hacc.onLpPacketLost options ((hrest j hj).resolve_left hmem)).map fun r hr => ?_
        refine ⟨hr.1, fun i hi => ?_⟩
        rcases hrest i hi with hi | hi
        · exact Or.inl (List.mem_append_left _ hi)
        · exact (hr.2.2 i hi).imp_left (List.mem_append_right _)

theorem Inv.queueAck (h : Inv s) (pkt : LpPacket) (now rto : ℕ) : Inv (s.queueAck pkt now rto).2 := by
  have hsame : ∀ acks seqs queue, Inv { s with
      ackQueue := acks, recentRecvSeqs := seqs, recentRecvSeqsQueue := queue } := fun _ _ _ =>
    h.congr (h.window.congr rfl rfl rfl rfl) rfl rfl rfl rfl rfl
  unfold LpReliability.queueAck
  dsimp only
  split_ifs
  · split
    · exact h
    · split
      · exact hsame _ _ _
      · exact hsame _ _ _
  · split
    · exact h
    · exact hsame _ _ _
  · exact h

theorem Inv.processIncomingPacket (h : Inv s) (options : Options) (pkt : LpPacket) (now rto : ℕ) :
    Yields Exhausted (fun r => Inv r.2) (s.processIncomingPacket options pkt now rto) := by
  unfold LpReliability.processIncomingPacket
  split
  · exact h
  · refine Yields.map (P := Inv) (Yields.foldlM h fun ack _ s hs => hs.processAck options ack)
      fun s hs => hs.queueAck pkt now rto

/-! ## Outgoing packets -/

section StoreFrag

variable {id new : ℕ} {pkt : LpPacket}

theorem storeFrag_map : (s.storeFrag id new pkt).unackedFrags =
    ((s.emplace new pkt).modifyFrag new fun f => { f with netPkt := id }).unackedFrags := by
  unfold storeFrag
  dsimp only
  split_ifs <;> rfl

theorem storeFrag_find? (hfresh : s.unackedFrags.find? new = none) (j : ℕ) :
    (s.storeFrag id new pkt).unackedFrags.find? j =
      if new = j then some { pkt, netPkt := id, assigned := s.nAssigned }
      else s.unackedFrags.find? j := by
  rw [storeFrag_map, modifyFrag, OrdMap.find?_modify, emplace, OrdMap.find?_insertNew]
  by_cases hj : new = j
  · subst hj
    simp [hfresh]
  · simp [hj]

theorem storeFrag_owner (hfresh : s.unackedFrags.find? new = none) (j : ℕ) :
    (s.storeFrag id new pkt).owner j = if new = j then some id else s.owner j := by
  rw [owner, storeFrag_find? hfresh, owner]
  split_ifs <;> rfl

theorem storeFrag_netPkts : (s.storeFrag id new pkt).netPkts = Function.update s.netPkts id
    { s.netPkts id with unackedFrags := (s.netPkts id).unackedFrags ++ [new] } := by
  unfold storeFrag
  dsimp only
  split_ifs <;> rfl

variable (s id new pkt)

theorem storeFrag_rest : (s.storeFrag id new pkt).nNetPkts = s.nNetPkts ∧
    (s.storeFrag id new pkt).counted = s.counted ∧
    (s.storeFrag id new pkt).counter = s.counter ∧
    (s.storeFrag id new pkt).lastTxSeqNo = s.lastTxSeqNo ∧
    (s.storeFrag id new pkt).nAssigned = s.nAssigned := by
  unfold storeFrag
  dsimp only
  split_ifs <;> exact ⟨rfl, rfl, rfl, rfl, rfl⟩

theorem storeFrag_first : (s.storeFrag id new pkt).firstUnackedFrag =
    if (s.storeFrag id new pkt).unackedFrags.toList.length = 1 then
      (s.storeFrag id new pkt).unackedFrags.begin?
    else s.firstUnackedFrag := by
  rw [storeFrag_map]
  unfold storeFrag
  dsimp only
  split_ifs <;> rfl

end StoreFrag

theorem Window.storeFrag (h : Window s) {id : ℕ} {pkt : LpPacket}
    (hfresh : s.unackedFrags.find? s.lastTxSeqNo = none) :
    Window (s.storeFrag id s.lastTxSeqNo pkt) := by
  obtain ⟨-, -, -, hlast, hn⟩ := storeFrag_rest s id s.lastTxSeqNo pkt
  have hhas : ∀ j, (s.storeFrag id s.lastTxSeqNo pkt).unackedFrags.Has j ↔
      s.lastTxSeqNo = j ∨ s.unackedFrags.Has j := fun j => by
    rw [OrdMap.Has, OrdMap.Has, storeFrag_find? hfresh]
    by_cases hj : s.lastTxSeqNo = j
    · simp [hj]
    · simp [hj]
  refine h.store rfl (storeFrag_find? hfresh) hlast hn ?_
  rw [storeFrag_first]
  cases hf : s.firstUnackedFrag with
  | none =>
    have hempty := h.first_none hf
    have hone : (s.storeFrag id s.lastTxSeqNo pkt).unackedFrags.toList.length = 1 :=
      OrdMap.length_eq_one_iff.mpr ⟨s.lastTxSeqNo, (hhas _).mpr (Or.inl rfl), fun j hj =>
        (((hhas j).mp hj).resolve_right (hempty j)).symm⟩
    rw [if_pos hone, Option.none_or]
    cases hb : (s.storeFrag id s.lastTxSeqNo pkt).unackedFrags.begin? with
    | none => exact absurd ((hhas _).mpr (Or.inl rfl)) (OrdMap.begin?_eq_none.mp hb s.lastTxSeqNo)
    | some k =>
      rw [((hhas k).mp (OrdMap.begin?_eq_some hb).1).resolve_right (hempty k)]
  | some f =>
    have hff := (h.first_some hf).1
    rw [Option.some_or, if_neg]
    intro hone
    obtain ⟨k, -, hall⟩ := OrdMap.length_eq_one_iff.mp hone
    have h1 := hall f ((hhas f).mpr (Or.inr hff))
    have h2 := hall s.lastTxSeqNo ((hhas _).mpr (Or.inl rfl))
    rw [h1, ← h2] at hff
    exact OrdMap.not_has_iff.mpr hfresh hff

theorem Accounts.sendFrag (ha : Accounts s) (hw : Window s) {id : ℕ} {frag : LpPacket}
    (hid : id < s.nNetPkts) (hzero : s.timesCounted id = 0) (hseq : frag.has tlvSequence) :
    Yields Exhausted (fun t => Window t ∧ Accounts t ∧ t.nNetPkts = s.nNetPkts ∧
      (∀ id', t.timesCounted id' = s.timesCounted id') ∧
      (∀ id', id' ≠ id → t.netPkts id' = s.netPkts id') ∧ (t.netPkts id).unackedFrags ≠ [])
      (sendFrag id s frag) := by
  unfold LpReliability.sendFrag
  rw [if_pos hseq]
  refine hw.assignTxSequence.map fun a ⟨ha', hfresh, hadv⟩ => ?_
  subst ha'
  set pkt := frag.set tlvTxSequence (encodeSequence s.advance.lastTxSeqNo)
  set t := s.advance.storeFrag id s.advance.lastTxSeqNo pkt with ht
  have hwt : Window t := hadv.storeFrag hfresh
  obtain ⟨hn, hcounted, hcounter, -, -⟩ := storeFrag_rest s.advance id s.advance.lastTxSeqNo pkt
  have hown : ∀ j, t.owner j = if s.advance.lastTxSeqNo = j then some id else s.owner j :=
    storeFrag_owner hfresh
  have hnet : t.netPkts = Function.update s.netPkts id { s.netPkts id with
      unackedFrags := (s.netPkts id).unackedFrags ++ [s.advance.lastTxSeqNo] } := storeFrag_netPkts
  have hself : t.netPkts id = { s.netPkts id with
      unackedFrags := (s.netPkts id).unackedFrags ++ [s.advance.lastTxSeqNo] } := by
    rw [hnet, Function.update_self]
  have hnet' : ∀ id', id' ≠ id → t.netPkts id' = s.netPkts id' := fun id' hne => by
    rw [hnet, Function.update_of_ne hne]
  have htimes : ∀ id', t.timesCounted id' = s.timesCounted id' := fun id' => by
    rw [timesCounted, timesCounted, ht, hcounted]
    rfl
  have hlive : s.Live id := (ha.either hid).resolve_right fun hd => by
    rw [hd.1] at hzero
    cases hzero
  have hnone : s.owner s.advance.lastTxSeqNo = none := by
    rw [owner, hfresh, Option.map_none]
  have hat : Accounts t := by
    refine ha.edit hn hid (fun j id' hne => ?_) hnet' (fun id' _ => htimes id') (fun j hj => ?_)
      (Or.inl ⟨by rw [htimes, hzero], ?_, fun j hj => ?_⟩) (by rw [hself]) ?_ ?_
    · rw [hown]
      split_ifs with hj
      · rw [← hj, hnone]
        exact iff_of_false (fun hx => hne (Option.some.inj hx).symm) (by simp)
      · rfl
    · rw [hself]
      rw [hown] at hj
      split_ifs at hj with h1
      · exact List.mem_append_right _ (h1 ▸ List.mem_singleton_self _)
      · exact List.mem_append_left _ (ha.owned hj).2
    · rw [hself]
      refine List.nodup_append'.mpr ⟨hlive.2.1, List.nodup_singleton _,
        List.disjoint_singleton.mpr fun hx => ?_⟩
      have h1 := hlive.2.2 _ hx
      rw [hnone] at h1
      cases h1
    · rw [hself] at hj
      rw [hown]
      rcases List.mem_append.mp hj with hj | hj
      · split_ifs
        · rfl
        · exact hlive.2.2 j hj
      · rw [if_pos (List.mem_singleton.mp hj).symm]
    · rw [hcounted]
      exact ha.ledger
    · rw [ht, hcounted, hcounter]
      exact ha.counter
  refine ⟨hwt.congr rfl rfl rfl rfl, ?_, hn, htimes, hnet', ?_⟩
  · exact ⟨hat.owned, hat.either, hat.fragment, hat.ledger, hat.counter⟩
  · change (t.netPkts id).unackedFrags ≠ []
    rw [hself]
    simp

/-- **A network packet goes out.** -/
theorem Inv.handleOutgoing (h : Inv s) (out : Outgoing) :
    Yields Exhausted Inv (s.handleOutgoing out.frags out.pkt out.isInterest) := by
  obtain ⟨frags, pkt, isInterest, hne, hseq, hfrag⟩ := out
  obtain ⟨frag, frags, rfl⟩ := List.exists_cons_of_ne_nil hne
  set id := s.nNetPkts with hid
  set s₀ : LpReliability := { s with
    netPkts := Function.update s.netPkts id { pkt, isInterest }, nNetPkts := id + 1 } with hs₀
  have hnew : s₀.netPkts id = { pkt, isInterest } := Function.update_self _ _ _
  have hold : ∀ id', id' ≠ id → s₀.netPkts id' = s.netPkts id' := fun id' hx =>
    Function.update_of_ne hx _ _
  have hzero : s₀.timesCounted id = 0 := by
    refine List.countP_eq_zero.mpr fun c hc => ?_
    have := h.accounts.ledger hc
    simp only [beq_iff_eq]
    omega
  have hw₀ : Window s₀ := h.window.congr rfl rfl rfl rfl
  have ha₀ : Accounts s₀ := by
    refine ⟨fun {k id'} hk => ?_, fun {id'} hlt => ?_, fun {id'} hlt => ?_, fun {c} hc => ?_,
      h.accounts.counter⟩
    · obtain ⟨h1, h2⟩ := h.accounts.owned (show s.owner k = some id' from hk)
      rw [hold id' (by omega)]
      exact ⟨Nat.lt_succ_of_lt h1, h2⟩
    · by_cases he : id' = id
      · subst he
        refine Or.inl ⟨hzero, ?_, fun k hk => ?_⟩
        · rw [hnew]
          exact List.nodup_nil
        · rw [hnew] at hk
          cases hk
      · have hlt' : id' < s.nNetPkts := lt_of_le_of_ne (Nat.lt_succ_iff.mp hlt) he
        rw [Live, hold id' he]
        exact h.accounts.either hlt'
    · by_cases he : id' = id
      · rw [he, hnew]
        exact hfrag
      · rw [hold id' he]
        exact h.accounts.fragment (lt_of_le_of_ne (Nat.lt_succ_iff.mp hlt) he)
    · exact Nat.lt_succ_of_lt (h.accounts.ledger hc)
  -- what the loop keeps, from the first fragment on
  have hloop : Yields Exhausted (fun t => Window t ∧ Accounts t ∧ t.nNetPkts = id + 1 ∧
      (∀ id', t.timesCounted id' = s₀.timesCounted id') ∧
      (∀ id', id' ≠ id → t.netPkts id' = s₀.netPkts id') ∧ (t.netPkts id).unackedFrags ≠ [])
      ((frag :: frags).foldlM (LpReliability.sendFrag id) s₀) := by
    rw [List.foldlM_cons]
    refine Yields.bind (ha₀.sendFrag hw₀ (Nat.lt_succ_self id) hzero
      (hseq frag List.mem_cons_self)) fun t ht => ?_
    refine Yields.foldlM ht fun f hf u ⟨hw, ha, hn, htimes, hnet, _⟩ => ?_
    refine (ha.sendFrag hw (by rw [hn]; exact Nat.lt_succ_self id) (by rw [htimes, hzero])
      (hseq f (List.mem_cons_of_mem _ hf))).mono fun v ⟨hwv, hav, hnv, htv, hnetv, hnev⟩ => ?_
    exact ⟨hwv, hav, hnv.trans hn, fun id' => (htv id').trans (htimes id'),
      fun id' hx => (hnetv id' hx).trans (hnet id' hx), hnev⟩
  refine hloop.mono fun t ⟨hw, ha, hn, htimes, hnet, hne⟩ => ⟨hw, ha, fun id' hlt hx => ?_⟩
  by_cases he : id' = id
  · exact he ▸ hne
  · rw [hnet id' he, hold id' he]
    rw [htimes] at hx
    rw [hn] at hlt
    exact h.filled id' (lt_of_le_of_ne (Nat.lt_succ_iff.mp hlt) he) hx

/-! ## Runs -/

theorem inv_init (last : UInt64) : Inv (init last) where
  window := window_init last
  accounts := {
    owned := fun hk => by cases hk
    either := fun hlt => absurd hlt (Nat.not_lt_zero _)
    fragment := fun hlt => absurd hlt (Nat.not_lt_zero _)
    ledger := fun hc => by cases hc
    counter := fun _ => rfl }
  filled := fun _ hlt => absurd hlt (Nat.not_lt_zero _)

theorem Inv.step (h : Inv s) (options : Options) (event : Event) :
    Yields Exhausted Inv (step options s event) := by
  cases event with
  | handleOutgoing out => exact h.handleOutgoing out
  | processIncomingPacket pkt now rto =>
    exact (h.processIncomingPacket options pkt now rto).map fun _ hr => hr
  | rtoExpired txSeq =>
    cases hf : s.unackedFrags.find? txSeq with
    | none =>
      simp only [LpReliability.step, hf]
      exact h
    | some frag =>
      simp only [LpReliability.step, hf]
      exact (h.onLpPacketLost options ⟨frag, hf⟩).map fun _ hr => hr.1

theorem run_inv (options : Options) (last : UInt64) (events : List Event) :
    Yields Exhausted Inv (run options (init last) events) :=
  Yields.foldlM (inv_init last) fun event _ _ hs => hs.step options event

/-- Every network packet has a stored fragment and was not counted, or has none and was counted
once; the counters add up; every stored fragment is listed once in its own network packet. -/
structure Conserved (s : LpReliability) : Prop where
  once : ∀ id, id < s.nNetPkts →
    (∃ k, s.owner k = some id) ∧ s.timesCounted id = 0 ∨
      (¬ ∃ k, s.owner k = some id) ∧ s.timesCounted id = 1
  counter : ∀ c, s.counter c = s.counted.countP (·.2 == c)
  listed : ∀ k frag, s.unackedFrags.find? k = some frag →
    (s.netPkts frag.netPkt).unackedFrags.count k = 1

theorem Inv.conserved (h : Inv s) : Conserved s where
  once id hlt := by
    rcases h.accounts.either hlt with ⟨hzero, -, hall⟩ | ⟨hone, hnone⟩
    · obtain ⟨k, hk⟩ := List.exists_mem_of_ne_nil _ (h.filled id hlt hzero)
      exact Or.inl ⟨⟨k, hall k hk⟩, hzero⟩
    · exact Or.inr ⟨fun ⟨k, hk⟩ => hnone k hk, hone⟩
  counter := h.accounts.counter
  listed k frag hk := by
    have howner : s.owner k = some frag.netPkt := by rw [owner, hk, Option.map_some]
    exact List.count_eq_one_of_mem (h.accounts.live howner).2.1 (h.accounts.owned howner).2

/-- `m_firstUnackedFrag` points to the stored fragment whose number was assigned first, which is the
one farthest behind the last number assigned; `findLostLpPackets` ends for every stored number, and
counts one more Ack for exactly the fragments whose number was assigned before it. -/
structure WindowStart (options : Options) (s : LpReliability) : Prop where
  oldest : ∀ k frag, s.unackedFrags.find? k = some frag → ∃ f first,
    s.firstUnackedFrag = some f ∧ s.unackedFrags.find? f = some first ∧
      (k ≠ f → first.assigned < frag.assigned ∧
        behind (2 ^ 64) s.lastTxSeqNo k < behind (2 ^ 64) s.lastTxSeqNo f)
  older : ∀ ack frag, s.unackedFrags.find? ack = some frag → ∃ lost t,
    s.findLostLpPackets options ack = .ok (lost, t) ∧
      ∀ k, t.unackedFrags.find? k = (s.unackedFrags.find? k).map fun f =>
        if f.assigned < frag.assigned then { f with nGreaterSeqAcks := f.nGreaterSeqAcks + 1 }
        else f

theorem Window.windowStart (h : Window s) (options : Options) : WindowStart options s where
  oldest k frag hk := by
    obtain ⟨f, first, hf, hfirst⟩ := h.first ⟨frag, hk⟩
    obtain ⟨hhas, hmax⟩ := h.first_some hf
    refine ⟨f, first, hf, hfirst, fun hne => ?_⟩
    have hlt : s.age k < s.age f := lt_of_le_of_ne (hmax k ⟨frag, hk⟩)
      fun he => hne (h.age_inj ⟨frag, hk⟩ hhas he)
    exact ⟨(h.assigned_lt_iff hfirst hk).mpr hlt, hlt⟩
  older ack frag hack := by
    obtain ⟨lost, m, hfind, hm, -⟩ := h.findLostLpPackets options hack
    exact ⟨lost, _, hfind, hm⟩

/-- **The start of the window over every run**, from any value of the 64-bit counter. -/
theorem run_window (options : Options) (last : UInt64) (events : List Event) :
    match run options (init last) events with
    | .ok s => WindowStart options s
    | .error e => e = .lengthError (2 ^ 64) := by
  have h := run_inv options last events
  revert h
  cases run options (init last) events with
  | ok s => exact fun h => (Inv.window h).windowStart options
  | error e => exact fun h => h

end Ns3Ndn.LpReliability
