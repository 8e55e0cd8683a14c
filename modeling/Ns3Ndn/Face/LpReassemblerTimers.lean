import Ns3Ndn.Face.LpReassembler

/-!
# Drop timers of partial packets

`LpReassembler` keeps a drop timer with each partial packet. A packet that is complete is parsed before it is
erased. When the bytes are no TLV, the exception leaves it in the table with all its fragments, until its last drop
timer fires.

* **`run_wellFormed_iff`**: the partial packets are well formed as long as complete packets can be parsed.
-/

namespace Ns3Ndn

open Tlv LpPacket

structure TimedPacket extends PartialPacket where
  dropTimer : Option ℕ := none

structure TimedReassembler (E : Type) where
  partialPackets : E × ℕ → Option TimedPacket := fun _ => none
  pending : List (ℕ × (E × ℕ)) := []
  nextTimer : ℕ := 0

namespace TimedReassembler

variable {E : Type} [DecidableEq E]

/-! ## The code -/

def cancel (t : TimedReassembler E) (timer : Option ℕ) : TimedReassembler E :=
  { t with pending := t.pending.filter fun b => some b.1 ≠ timer }

def store (t : TimedReassembler E) (key : E × ℕ) (pp : TimedPacket) : TimedReassembler E :=
  { t with partialPackets := Function.update t.partialPackets key (some pp) }

/-- `m_partialPackets.erase`: the drop timer is cancelled with its partial packet. -/
def erase (t : TimedReassembler E) (key : E × ℕ) : TimedReassembler E :=
  { t.cancel ((t.partialPackets key).bind TimedPacket.dropTimer) with
    partialPackets := Function.update t.partialPackets key none }

def setDropTimer (t : TimedReassembler E) (key : E × ℕ) (pp : TimedPacket) : TimedReassembler E where
  partialPackets := Function.update t.partialPackets key (some { pp with dropTimer := some t.nextTimer })
  pending := (t.cancel pp.dropTimer).pending ++ [(t.nextTimer, key)]
  nextTimer := t.nextTimer + 1

def collect (t : TimedReassembler E) (key : E × ℕ) (fragIndex fragCount : ℕ) (packet : LpPacket) :
    Reception × TimedReassembler E :=
  let pp := (t.partialPackets key).getD {}
  if pp.fragCount ≠ 0 ∧ fragCount ≠ pp.fragCount then (.dropped, t)
  else
    let pp : TimedPacket :=
      if pp.fragCount = 0 then { pp with fragments := List.replicate fragCount {}, fragCount, nReceivedFragments := 0 }
      else pp
    if (pp.fragments.getD fragIndex {}).has tlvSequence then (.dropped, t.store key pp)
    else
      let pp := { pp with
        fragments := pp.fragments.set fragIndex packet
        nReceivedFragments := pp.nReceivedFragments + 1 }
      if pp.nReceivedFragments = pp.fragCount then
        match doReassembly pp.toPartialPacket with
        | .ok netPkt => (.complete netPkt (pp.fragments.getD 0 {}), t.erase key)
        | .error r => (r, t.store key pp)
      else (.dropped, t.setDropTimer key pp)

/-- `LpReassembler::receiveFragment`. -/
def receiveFragment (nMaxFragments : UInt64) (t : TimedReassembler E) (remoteEndpoint : E) (packet : LpPacket) :
    Reception × TimedReassembler E :=
  if ¬ packet.has tlvFragment then (.fault, t)
  else
    match packet.fragIndex, packet.fragCount with
    | some fragIndex, some fragCount =>
      if fragIndex ≥ fragCount then (.dropped, t)
      else if fragCount > nMaxFragments.toNat then (.dropped, t)
      else if fragIndex = 0 ∧ fragCount = 1 then
        match packet.getFragment.bind firstTlv with
        | none => (.error, t)
        | some netPkt => (.complete netPkt packet, t)
      else if ¬ packet.has tlvSequence then (.dropped, t)
      else
        match packet.getSequence tlvSequence with
        | none => (.error, t)
        | some sequence =>
          t.collect (remoteEndpoint, LpReassembler.messageIdentifier sequence fragIndex) fragIndex fragCount packet
    | _, _ => (.error, t)

def timeoutPartialPacket (t : TimedReassembler E) (key : E × ℕ) : TimedReassembler E :=
  match t.partialPackets key with
  | none => t
  | some _ => t.erase key

/-- A fragment comes in, or a timer fires. -/
inductive Event (E : Type) where
  | receive (remoteEndpoint : E) (packet : LpPacket)
  | timeout (timer : ℕ)

def step (nMaxFragments : UInt64) (t : TimedReassembler E) : Event E → TimedReassembler E
  | .receive remoteEndpoint packet => (t.receiveFragment nMaxFragments remoteEndpoint packet).2
  | .timeout timer =>
    match t.pending.find? fun b => b.1 == timer with
    | none => t
    | some (_, key) => (t.cancel (some timer)).timeoutPartialPacket key

/-! ## Without the timers -/

/-- The partial packets without their timers. -/
def toReassembler (t : TimedReassembler E) : LpReassembler E :=
  fun key => (t.partialPackets key).map TimedPacket.toPartialPacket

theorem toReassembler_update (t : TimedReassembler E) (key : E × ℕ) (pp : Option TimedPacket) (pending : List (ℕ × (E × ℕ)))
    (nextTimer : ℕ) :
    (⟨Function.update t.partialPackets key pp, pending, nextTimer⟩ : TimedReassembler E).toReassembler =
      Function.update t.toReassembler key (pp.map TimedPacket.toPartialPacket) := by
  funext key'
  unfold toReassembler Function.update
  dsimp only
  split_ifs with hkey
  · subst hkey
    rfl
  · rfl

theorem collect_toReassembler (t : TimedReassembler E) (key : E × ℕ) (fragIndex fragCount : ℕ) (packet : LpPacket) :
    (t.collect key fragIndex fragCount packet).1 = (t.toReassembler.collect key fragIndex fragCount packet).1 ∧
      (t.collect key fragIndex fragCount packet).2.toReassembler =
        (t.toReassembler.collect key fragIndex fragCount packet).2 := by
  have hpp : (t.toReassembler key).getD {} = ((t.partialPackets key).getD {}).toPartialPacket := by
    unfold toReassembler
    cases t.partialPackets key <;> rfl
  unfold collect LpReassembler.collect
  rw [hpp]
  generalize (t.partialPackets key).getD {} = pp
  dsimp only
  by_cases hcount : pp.fragCount ≠ 0 ∧ fragCount ≠ pp.fragCount
  · rw [if_pos hcount, if_pos hcount]
    exact ⟨rfl, rfl⟩
  · rw [if_neg hcount, if_neg hcount]
    have hnew : (if pp.fragCount = 0 then
        ({ pp with fragments := List.replicate fragCount {}, fragCount, nReceivedFragments := 0 } : TimedPacket)
        else pp).toPartialPacket =
          if pp.fragCount = 0 then ⟨List.replicate fragCount {}, fragCount, 0⟩ else pp.toPartialPacket := by
      split_ifs <;> rfl
    rw [← hnew]
    generalize (if pp.fragCount = 0 then
      ({ pp with fragments := List.replicate fragCount {}, fragCount, nReceivedFragments := 0 } : TimedPacket)
      else pp) = pp'
    by_cases hslot : (pp'.fragments.getD fragIndex {}).has tlvSequence = true
    · rw [if_pos hslot, if_pos hslot]
      exact ⟨rfl, t.toReassembler_update ..⟩
    · rw [if_neg hslot, if_neg hslot]
      by_cases hfull : pp'.nReceivedFragments + 1 = pp'.fragCount
      · rw [if_pos hfull, if_pos hfull]
        generalize doReassembly _ = r
        cases r <;> exact ⟨rfl, t.toReassembler_update ..⟩
      · rw [if_neg hfull, if_neg hfull]
        exact ⟨rfl, t.toReassembler_update ..⟩

/-- **The timers do not change what `receiveFragment` does.** -/
theorem receiveFragment_toReassembler (nMaxFragments : UInt64) (t : TimedReassembler E) (remoteEndpoint : E)
    (packet : LpPacket) :
    (t.receiveFragment nMaxFragments remoteEndpoint packet).1 =
        (t.toReassembler.receiveFragment nMaxFragments remoteEndpoint packet).1 ∧
      (t.receiveFragment nMaxFragments remoteEndpoint packet).2.toReassembler =
        (t.toReassembler.receiveFragment nMaxFragments remoteEndpoint packet).2 := by
  unfold receiveFragment LpReassembler.receiveFragment
  by_cases hfragment : packet.has tlvFragment = true
  · rw [if_neg (not_not_intro hfragment), if_neg (not_not_intro hfragment)]
    cases packet.fragIndex with
    | none => exact ⟨rfl, rfl⟩
    | some fragIndex =>
      cases packet.fragCount with
      | none => exact ⟨rfl, rfl⟩
      | some fragCount =>
        dsimp only
        split_ifs
        · exact ⟨rfl, rfl⟩
        · exact ⟨rfl, rfl⟩
        · cases packet.getFragment.bind firstTlv <;> exact ⟨rfl, rfl⟩
        · cases packet.getSequence tlvSequence with
          | none => exact ⟨rfl, rfl⟩
          | some sequence => exact t.collect_toReassembler ..
        · exact ⟨rfl, rfl⟩
  · rw [if_pos hfragment, if_pos hfragment]
    exact ⟨rfl, rfl⟩

end TimedReassembler

/-! ## Well-formed partial packets -/

/-- **A well-formed partial packet**: some fragments are there, but not all of them. -/
structure PartialPacket.WellFormed (nMaxFragments : ℕ) (pp : PartialPacket) : Prop where
  pos : 0 < pp.nReceivedFragments
  lt : pp.nReceivedFragments < pp.fragCount
  length : pp.fragments.length = pp.fragCount
  le_max : pp.fragCount ≤ nMaxFragments
  count : pp.nReceivedFragments = pp.fragments.countP fun f => f ≠ {}

/-- A complete packet can be parsed: no fragment is empty, the sum of their sizes has 32 bits, and together they
begin with a TLV. -/
def PartialPacket.Parses (pp : PartialPacket) : Prop :=
  ∃ payloads, pp.fragments.mapM getFragment = some payloads ∧ payloads.flatten.length < 2 ^ 32 ∧
    (firstTlv payloads.flatten).isSome

theorem exists_doReassembly_iff {pp : PartialPacket} : (∃ netPkt, doReassembly pp = .ok netPkt) ↔ pp.Parses := by
  unfold doReassembly PartialPacket.Parses
  cases pp.fragments.mapM getFragment with
  | none => simp
  | some payloads =>
    simp only [Option.some_inj, exists_eq_left']
    split_ifs with hlength
    · exact iff_of_false (fun ⟨_, h⟩ => by cases h) fun h => absurd h.1 (not_lt.mpr hlength)
    · rw [and_iff_right (not_le.mp hlength)]
      cases firstTlv payloads.flatten with
      | none => exact iff_of_false (fun ⟨_, h⟩ => by cases h) (by simp)
      | some netPkt => exact iff_of_true ⟨netPkt, rfl⟩ rfl

theorem countP_set_of_getD {frags : List LpPacket} {i : ℕ} (hi : i < frags.length) (hslot : frags.getD i {} = {})
    {packet : LpPacket} (hpacket : packet ≠ {}) :
    (frags.set i packet).countP (fun f => f ≠ {}) = frags.countP (fun f => f ≠ {}) + 1 := by
  induction frags generalizing i with
  | nil => exact absurd hi (Nat.not_lt_zero _)
  | cons f frags ih =>
    cases i with
    | zero =>
      have hf : f = {} := hslot
      simp [hf, hpacket]
    | succ i =>
      rw [List.set_cons_succ, List.countP_cons, List.countP_cons, ih (Nat.lt_of_succ_lt_succ hi) hslot]
      ring

namespace TimedReassembler

variable {E : Type} [DecidableEq E] {nMaxFragments : ℕ} {t : TimedReassembler E}

/-- **Every stored partial packet is well formed and has a drop timer pending.** -/
def WellFormed (nMaxFragments : ℕ) (t : TimedReassembler E) : Prop :=
  ∀ key pp, t.partialPackets key = some pp → pp.toPartialPacket.WellFormed nMaxFragments ∧
    ∃ timer, pp.dropTimer = some timer ∧ (timer, key) ∈ t.pending

/-- **The invariant.** Slots hold nothing or a packet with a Sequence, and the timers are those of the partial
packets. -/
structure Inv (nMaxFragments : ℕ) (t : TimedReassembler E) : Prop where
  wellFormed : WellFormed nMaxFragments t
  sequence : ∀ {key pp}, t.partialPackets key = some pp → ∀ f ∈ pp.fragments, f = {} ∨ f.has tlvSequence = true
  timer : ∀ {timer key}, (timer, key) ∈ t.pending →
    ∃ pp, t.partialPackets key = some pp ∧ pp.dropTimer = some timer
  nodup : (t.pending.map Prod.fst).Nodup
  lt : ∀ b ∈ t.pending, b.1 < t.nextTimer

omit [DecidableEq E] in
theorem inv_init : Inv nMaxFragments ({} : TimedReassembler E) where
  wellFormed key pp h := by cases h
  sequence h := by cases h
  timer h := by cases h
  nodup := List.nodup_nil
  lt b h := by cases h

omit [DecidableEq E] in
theorem mem_pending_cancel {timer : Option ℕ} {b : ℕ × (E × ℕ)} :
    b ∈ (t.cancel timer).pending ↔ b ∈ t.pending ∧ some b.1 ≠ timer := by
  simp [cancel]

theorem erase_self (t : TimedReassembler E) (key : E × ℕ) : (t.erase key).partialPackets key = none :=
  Function.update_self ..

omit [DecidableEq E] in
theorem Inv.key_unique (h : Inv nMaxFragments t) {timer : ℕ} {key key' : E × ℕ} (hb : (timer, key) ∈ t.pending)
    (hb' : (timer, key') ∈ t.pending) : key = key' :=
  congrArg Prod.snd (List.inj_on_of_nodup_map h.nodup hb hb' rfl)

/-- **A partial packet is erased with its timer.** -/
theorem Inv.erase (h : Inv nMaxFragments t) (key : E × ℕ) : Inv nMaxFragments (t.erase key) := by
  have hfind : ∀ {key' pp}, (t.erase key).partialPackets key' = some pp →
      key' ≠ key ∧ t.partialPackets key' = some pp := by
    intro key' pp hpp
    change Function.update t.partialPackets key none key' = some pp at hpp
    by_cases hkey : key' = key
    · rw [hkey, Function.update_self] at hpp
      cases hpp
    · rw [Function.update_of_ne hkey] at hpp
      exact ⟨hkey, hpp⟩
  have hmem : ∀ {b}, b ∈ (t.erase key).pending ↔
      b ∈ t.pending ∧ some b.1 ≠ (t.partialPackets key).bind TimedPacket.dropTimer := mem_pending_cancel
  refine ⟨fun key' pp hpp => ?_, fun hpp => h.sequence (hfind hpp).2, fun {timer key'} hb => ?_, ?_, fun b hb => ?_⟩
  · obtain ⟨hne, hpp⟩ := hfind hpp
    obtain ⟨hwell, timer, htimer, hb⟩ := h.wellFormed key' pp hpp
    refine ⟨hwell, timer, htimer, hmem.mpr ⟨hb, fun heq => ?_⟩⟩
    -- the timer of another partial packet
    obtain ⟨pp', hpp', htimer'⟩ := Option.bind_eq_some_iff.mp heq.symm
    obtain ⟨-, timer', htimer'', hb'⟩ := h.wellFormed key pp' hpp'
    obtain rfl : timer = timer' := Option.some.inj (htimer'.symm.trans htimer'')
    exact hne (h.key_unique hb hb')
  · obtain ⟨hb, hne⟩ := hmem.mp hb
    obtain ⟨pp, hpp, htimer⟩ := h.timer hb
    have hkey : key' ≠ key := by
      rintro rfl
      refine hne ?_
      rw [hpp]
      exact htimer.symm
    exact ⟨pp, (Function.update_of_ne hkey ..).trans hpp, htimer⟩
  · exact h.nodup.sublist (List.filter_sublist.map _)
  · exact h.lt b (hmem.mp hb).1

/-- **A partial packet is written back with a new timer.** -/
theorem Inv.setDropTimer (h : Inv nMaxFragments t) {key : E × ℕ} {pp : TimedPacket}
    (hwell : pp.toPartialPacket.WellFormed nMaxFragments)
    (hsequence : ∀ f ∈ pp.fragments, f = {} ∨ f.has tlvSequence = true)
    (htimer : pp.dropTimer = (t.partialPackets key).bind TimedPacket.dropTimer) :
    Inv nMaxFragments (t.setDropTimer key pp) := by
  have herase := h.erase key
  have hpending : (t.setDropTimer key pp).pending = (t.erase key).pending ++ [(t.nextTimer, key)] := by
    unfold TimedReassembler.setDropTimer TimedReassembler.erase
    rw [htimer]
  have hfind : ∀ key', (t.setDropTimer key pp).partialPackets key' = if key' = key then
      some { pp with dropTimer := some t.nextTimer } else (t.erase key).partialPackets key' := by
    intro key'
    unfold TimedReassembler.setDropTimer TimedReassembler.erase Function.update
    dsimp only
    split_ifs with hkey
    · subst hkey
      rfl
    · rfl
  refine ⟨fun key' pp' hpp => ?_, fun {key' pp'} hpp => ?_, fun {timer key'} hb => ?_, ?_, fun b hb => ?_⟩
  · rw [hfind] at hpp
    rw [hpending]
    split_ifs at hpp with hkey
    · rw [← Option.some.inj hpp, hkey]
      exact ⟨hwell, _, rfl, List.mem_append_right _ (List.mem_singleton_self _)⟩
    · obtain ⟨hwell', timer, htimer', hb⟩ := herase.wellFormed key' pp' hpp
      exact ⟨hwell', timer, htimer', List.mem_append_left _ hb⟩
  · rw [hfind] at hpp
    split_ifs at hpp
    · rw [← Option.some.inj hpp]
      exact hsequence
    · exact herase.sequence hpp
  · rw [hpending, List.mem_append, List.mem_singleton] at hb
    rw [hfind]
    rcases hb with hb | hb
    · obtain ⟨pp', hpp', htimer'⟩ := herase.timer hb
      have hkey : key' ≠ key := by
        rintro rfl
        rw [erase_self] at hpp'
        cases hpp'
      exact ⟨pp', (if_neg hkey).trans hpp', htimer'⟩
    · obtain ⟨rfl, rfl⟩ := Prod.mk.inj hb
      exact ⟨_, if_pos rfl, rfl⟩
  · rw [hpending, List.map_append]
    refine herase.nodup.append (List.nodup_singleton _) (List.disjoint_singleton.mpr fun hmem => ?_)
    obtain ⟨b, hb, heq⟩ := List.mem_map.mp hmem
    exact absurd (herase.lt b hb) (heq ▸ lt_irrefl _)
  · rw [hpending, List.mem_append, List.mem_singleton] at hb
    rcases hb with hb | rfl
    · exact Nat.lt_succ_of_lt (herase.lt b hb)
    · exact Nat.lt_succ_self _

omit [DecidableEq E] in
def completedBy (t : TimedReassembler E) (key : E × ℕ) (fragIndex fragCount : ℕ) (packet : LpPacket) :
    Option PartialPacket :=
  match t.partialPackets key with
  | none => none
  | some pp =>
    if fragCount = pp.fragCount ∧ (pp.fragments.getD fragIndex {}).has tlvSequence = false ∧
        pp.nReceivedFragments + 1 = pp.fragCount then
      some ⟨pp.fragments.set fragIndex packet, pp.fragCount, pp.nReceivedFragments + 1⟩
    else none

theorem store_self {key : E × ℕ} {pp : TimedPacket} (h : t.partialPackets key = some pp) : t.store key pp = t := by
  unfold store
  rw [← h, Function.update_eq_self]

/-- **What a fragment does**: if it completes a packet that cannot be parsed, that packet stays, and else the
invariant is kept. -/
theorem Inv.collect (h : Inv nMaxFragments t) (key : E × ℕ) {fragIndex fragCount : ℕ} (hindex : fragIndex < fragCount)
    (htwo : 2 ≤ fragCount) (hmax : fragCount ≤ nMaxFragments) {packet : LpPacket}
    (hpacket : packet.has tlvSequence = true) :
    ((∀ pp, t.completedBy key fragIndex fragCount packet = some pp → pp.Parses) ∧
        Inv nMaxFragments (t.collect key fragIndex fragCount packet).2) ∨
      (∃ pp, t.completedBy key fragIndex fragCount packet = some pp ∧ ¬ pp.Parses) ∧
        ¬ WellFormed nMaxFragments (t.collect key fragIndex fragCount packet).2 := by
  have hne : packet ≠ {} := by
    rintro rfl
    cases hpacket
  have hno : ∀ pp : PartialPacket, none = some pp → pp.Parses := fun _ h => by cases h
  unfold TimedReassembler.collect completedBy
  cases hpp : t.partialPackets key with
  | none =>
    refine Or.inl ⟨hno, ?_⟩
    have hempty : ((List.replicate fragCount {} : List LpPacket).getD fragIndex {}) = {} := by
      rw [List.getD_eq_getElem?_getD, List.getElem?_replicate_of_lt hindex]
      rfl
    dsimp only [Option.getD_none]
    have hmore : ¬ (0 + 1 = fragCount) := by omega
    rw [if_neg (by simp), if_pos rfl, hempty, if_neg (by decide), if_neg hmore]
    refine h.setDropTimer ⟨Nat.one_pos, htwo, ?_, hmax, ?_⟩ (fun f hf => ?_) (by rw [hpp]; rfl)
    · rw [List.length_set, List.length_replicate]
    · rw [countP_set_of_getD (by simpa using hindex) hempty hne]
      simp
    · rcases List.mem_or_eq_of_mem_set hf with hf | rfl
      · exact Or.inl (List.eq_of_mem_replicate hf)
      · exact Or.inr hpacket
  | some pp =>
    obtain ⟨hwell, -⟩ := h.wellFormed key pp hpp
    have hpos : pp.fragCount ≠ 0 := fun hzero => by
      have := hwell.lt
      omega
    dsimp only [Option.getD_some]
    by_cases hcount : fragCount = pp.fragCount
    · have hsame : ¬ (pp.fragCount ≠ 0 ∧ fragCount ≠ pp.fragCount) := fun h => h.2 hcount
      rw [if_neg hsame, if_neg hpos]
      by_cases hslot : (pp.fragments.getD fragIndex {}).has tlvSequence = true
      · have hnone : ¬ (fragCount = pp.fragCount ∧ (pp.fragments.getD fragIndex {}).has tlvSequence = false ∧
            pp.nReceivedFragments + 1 = pp.fragCount) := fun h => by
          rw [hslot] at h
          cases h.2.1
        rw [if_pos hslot, store_self hpp, if_neg hnone]
        exact Or.inl ⟨hno, h⟩
      · have hfree : pp.fragments.getD fragIndex {} = {} := by
          have hmem : pp.fragments.getD fragIndex {} ∈ pp.fragments := by
            rw [List.getD_eq_getElem _ _ (by rw [hwell.length]; omega)]
            exact List.getElem_mem _
          exact (h.sequence hpp _ hmem).resolve_right hslot
        have hsequence : ∀ f ∈ pp.fragments.set fragIndex packet, f = {} ∨ f.has tlvSequence = true := by
          intro f hf
          rcases List.mem_or_eq_of_mem_set hf with hf | rfl
          · exact h.sequence hpp f hf
          · exact Or.inr hpacket
        rw [if_neg hslot]
        by_cases hfull : pp.nReceivedFragments + 1 = pp.fragCount
        · have hall : fragCount = pp.fragCount ∧ (pp.fragments.getD fragIndex {}).has tlvSequence = false ∧
              pp.nReceivedFragments + 1 = pp.fragCount := ⟨hcount, by simpa using hslot, hfull⟩
          rw [if_pos hfull, if_pos hall]
          let pp' : PartialPacket := ⟨pp.fragments.set fragIndex packet, pp.fragCount, pp.nReceivedFragments + 1⟩
          have hparses : (∃ netPkt, doReassembly pp' = .ok netPkt) ↔ pp'.Parses := exists_doReassembly_iff
          cases hre : doReassembly ⟨pp.fragments.set fragIndex packet, pp.fragCount, pp.nReceivedFragments + 1⟩ with
          | ok netPkt =>
            refine Or.inl ⟨fun pp' hpp' => Option.some.inj hpp' ▸ hparses.mp ⟨netPkt, hre⟩, h.erase key⟩
          | error r =>
            refine Or.inr ⟨⟨_, rfl, fun hp => ?_⟩, fun hwf => ?_⟩
            · obtain ⟨netPkt, hok⟩ := hparses.mpr hp
              rw [hre] at hok
              cases hok
            · have hlt := (hwf key _ (Function.update_self ..)).1.lt
              dsimp only at hlt
              omega
        · have hnone : ¬ (fragCount = pp.fragCount ∧ (pp.fragments.getD fragIndex {}).has tlvSequence = false ∧
              pp.nReceivedFragments + 1 = pp.fragCount) := fun h => hfull h.2.2
          rw [if_neg hfull, if_neg hnone]
          refine Or.inl ⟨hno, h.setDropTimer ⟨Nat.succ_pos _, lt_of_le_of_ne hwell.lt hfull, ?_, hwell.le_max, ?_⟩
            hsequence (by rw [hpp]; rfl)⟩
          · rw [List.length_set, hwell.length]
          · rw [countP_set_of_getD (by rw [hwell.length]; omega) hfree hne, ← hwell.count]
    · have hchanged : pp.fragCount ≠ 0 ∧ fragCount ≠ pp.fragCount := ⟨hpos, hcount⟩
      have hnone : ¬ (fragCount = pp.fragCount ∧ (pp.fragments.getD fragIndex {}).has tlvSequence = false ∧
          pp.nReceivedFragments + 1 = pp.fragCount) := fun h => hcount h.1
      rw [if_pos hchanged, if_neg hnone]
      exact Or.inl ⟨hno, h⟩

/-! ## Runs -/

def StepParses (nMaxFragments : UInt64) (t : TimedReassembler E) : Event E → Prop
  | .receive remoteEndpoint packet => packet.has tlvFragment = true →
      ∀ fragIndex ∈ packet.fragIndex, ∀ fragCount ∈ packet.fragCount,
      ∀ sequence ∈ packet.getSequence tlvSequence, fragIndex < fragCount → 2 ≤ fragCount →
      fragCount ≤ nMaxFragments.toNat → ∀ pp,
        t.completedBy (remoteEndpoint, LpReassembler.messageIdentifier sequence fragIndex) fragIndex fragCount packet =
          some pp → pp.Parses
  | .timeout _ => True

def EveryState (nMaxFragments : UInt64) (P : TimedReassembler E → Prop) :
    TimedReassembler E → List (Event E) → Prop
  | t, [] => P t
  | t, e :: es => P t ∧ EveryState nMaxFragments P (t.step nMaxFragments e) es

def EveryStep (nMaxFragments : UInt64) (P : TimedReassembler E → Event E → Prop) :
    TimedReassembler E → List (Event E) → Prop
  | _, [] => True
  | t, e :: es => P t e ∧ EveryStep nMaxFragments P (t.step nMaxFragments e) es

variable {nMaxFragments : UInt64}

/-- **A step.** -/
theorem Inv.step (h : Inv nMaxFragments.toNat t) (e : Event E) :
    (StepParses nMaxFragments t e ∧ Inv nMaxFragments.toNat (t.step nMaxFragments e)) ∨
      ¬ StepParses nMaxFragments t e ∧ ¬ WellFormed nMaxFragments.toNat (t.step nMaxFragments e) := by
  cases e with
  | timeout timer =>
    refine Or.inl ⟨trivial, ?_⟩
    unfold TimedReassembler.step
    dsimp only
    split
    · exact h
    case h_2 timer' key hfind =>
      have hb := List.mem_of_find?_eq_some hfind
      obtain rfl : timer' = timer := by simpa using List.find?_some hfind
      obtain ⟨pp, hpp, htimer⟩ := h.timer hb
      -- cancelling a timer that has fired changes nothing
      have hcancel : (t.cancel (some timer')).erase key = t.erase key := by
        unfold TimedReassembler.erase cancel
        dsimp only
        rw [hpp, Option.bind_some, htimer, List.filter_filter]
        simp only [Bool.and_self]
      unfold timeoutPartialPacket
      change Inv _ (match t.partialPackets key with | none => _ | some _ => _)
      rw [hpp]
      dsimp only
      rw [hcancel]
      exact h.erase key
  | receive remoteEndpoint packet =>
    unfold StepParses TimedReassembler.step receiveFragment
    dsimp only
    by_cases hfragment : packet.has tlvFragment = true
    · rw [if_neg (not_not_intro hfragment)]
      cases hindex : packet.fragIndex with
      | none => exact Or.inl ⟨fun _ _ hi => absurd hi (by simp), h⟩
      | some fragIndex =>
        cases hcount : packet.fragCount with
        | none => exact Or.inl ⟨fun _ _ _ _ hc => absurd hc (by simp), h⟩
        | some fragCount =>
          simp only [Option.mem_def, Option.some_inj, forall_eq']
          by_cases hlt : fragIndex < fragCount
          · rw [if_neg (not_le.mpr hlt)]
            by_cases hmax : fragCount ≤ nMaxFragments.toNat
            · rw [if_neg (not_lt.mpr hmax)]
              by_cases hone : fragIndex = 0 ∧ fragCount = 1
              · rw [if_pos hone]
                refine Or.inl ⟨fun _ _ _ _ htwo => absurd htwo (by omega), ?_⟩
                split <;> exact h
              · rw [if_neg hone]
                have htwo : 2 ≤ fragCount := by omega
                by_cases hsequence : packet.has tlvSequence = true
                · rw [if_neg (not_not_intro hsequence)]
                  cases hseq : packet.getSequence tlvSequence with
                  | none => exact Or.inl ⟨fun _ _ hs => absurd hs (by simp), h⟩
                  | some sequence =>
                    simp only [Option.some_inj, forall_eq', hfragment, hlt, htwo, hmax, forall_const]
                    rcases h.collect (remoteEndpoint, LpReassembler.messageIdentifier sequence fragIndex) hlt htwo hmax
                      hsequence with hgood | ⟨⟨pp, hpp, hparses⟩, hwf⟩
                    · exact Or.inl hgood
                    · exact Or.inr ⟨fun hall => hparses (hall pp hpp), hwf⟩
                · rw [if_pos hsequence]
                  refine Or.inl ⟨fun _ sequence hs => ?_, h⟩
                  rw [getSequence, Option.bind_eq_some_iff] at hs
                  obtain ⟨v, hv, -⟩ := hs
                  exact absurd (by rw [has_eq_isSome, hv]; rfl) hsequence
            · rw [if_pos (not_le.mp hmax)]
              exact Or.inl ⟨fun _ _ _ _ _ hle => absurd hle hmax, h⟩
          · rw [if_pos (not_lt.mp hlt)]
            exact Or.inl ⟨fun _ _ _ hindex => absurd hindex hlt, h⟩
    · rw [if_pos hfragment]
      exact Or.inl ⟨fun hf => absurd hf hfragment, h⟩

/-- **In every run the partial packets are well formed exactly as long as complete packets can be parsed.** -/
theorem run_wellFormed_iff (nMaxFragments : UInt64) (es : List (Event E)) :
    EveryState nMaxFragments (WellFormed nMaxFragments.toNat) ({} : TimedReassembler E) es ↔
      EveryStep nMaxFragments (StepParses nMaxFragments) ({} : TimedReassembler E) es := by
  have hrun : ∀ t : TimedReassembler E, Inv nMaxFragments.toNat t →
      (EveryState nMaxFragments (WellFormed nMaxFragments.toNat) t es ↔
        EveryStep nMaxFragments (StepParses nMaxFragments) t es) := by
    induction es with
    | nil => exact fun t ht => iff_of_true ht.wellFormed trivial
    | cons e es ih =>
      intro t ht
      unfold EveryState EveryStep
      rw [and_iff_right ht.wellFormed]
      rcases ht.step e with ⟨hparses, hinv⟩ | ⟨hparses, hwf⟩
      · rw [and_iff_right hparses, ih _ hinv]
      · refine iff_of_false (fun hstates => hwf ?_) fun hsteps => hparses hsteps.1
        cases es with
        | nil => exact hstates
        | cons e' es => exact hstates.1
  exact hrun {} inv_init

/-- A fragment of a message of two, with one byte that begins no TLV. -/
def brokenFragment (fragIndex : ℕ) : LpPacket :=
  ⟨[⟨tlvSequence, encodeSequence fragIndex⟩, ⟨tlvFragIndex, encodeNonNegativeInteger fragIndex⟩,
    ⟨tlvFragCount, encodeNonNegativeInteger 2⟩, ⟨tlvFragment, [0]⟩]⟩

/-- **When both fragments are there, the partial packet stays with two fragments of two.** -/
theorem not_run_wellFormed_brokenFragment :
    ¬ EveryState 400 (WellFormed (400 : UInt64).toNat) ({} : TimedReassembler Unit)
      [.receive () (brokenFragment 0), .receive () (brokenFragment 1)] := by
  rintro ⟨-, -, hwf⟩
  have hfull : ((({} : TimedReassembler Unit).step 400 (.receive () (brokenFragment 0))).step 400
      (.receive () (brokenFragment 1))).partialPackets ((), 0) |>.any fun pp =>
        decide (pp.nReceivedFragments = pp.fragCount) := by
    decide
  obtain ⟨pp, hpp, heq⟩ := Option.any_eq_true .. |>.mp hfull
  have := (hwf _ pp hpp).1.lt
  rw [decide_eq_true_iff] at heq
  omega

end TimedReassembler

end Ns3Ndn
