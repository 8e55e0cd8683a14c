import Ns3Ndn.Lte.RlcAmSender

/-!
# The transmitting window of LTE RLC AM

The invariant of the transmitting side, by the numbers of the PDUs counted without a turn: a PDU between `VT(A)` and `VT(S)` is in
exactly one of the two buffers until a status report says that it was received, and the counters are the sizes of what is in them.

* `Buffered`, `Outstanding`: the two buffers, and the invariant;
* **`Outstanding.receiveStatus`**: a status report that is not older than what was learned before.
-/

namespace Ns3Ndn.Lte

open SequenceNumber10

/-! ## Sizes -/

def placeSize (p : Option RlcPdu) : ℕ := p.elim 0 RlcPdu.getSize

def placesSize (places : ℕ → Option RlcPdu) : ℕ := ∑ v ∈ Finset.range 1024, placeSize (places v)

theorem placesSize_update (places : ℕ → Option RlcPdu) {v : ℕ} (hv : v < 1024) (p : Option RlcPdu) :
    placesSize (Function.update places v p) + placeSize (places v) = placesSize places + placeSize p := by
  have hmem := Finset.mem_range.mpr hv
  have hrest : ∑ w ∈ (Finset.range 1024).erase v, placeSize (Function.update places v p w) =
      ∑ w ∈ (Finset.range 1024).erase v, placeSize (places w) :=
    Finset.sum_congr rfl fun w hw => by rw [Function.update_of_ne (Finset.ne_of_mem_erase hw)]
  rw [placesSize, placesSize, ← Finset.add_sum_erase _ _ hmem, ← Finset.add_sum_erase _ _ hmem, hrest, Function.update_self]
  omega

theorem ofNat_placesSize_some {places : ℕ → Option RlcPdu} {size : UInt32} (h : size = UInt32.ofNat (placesSize places)) {v : ℕ}
    (hv : v < 1024) (hnone : places v = none) (p : RlcPdu) :
    size + UInt32.ofNat p.getSize = UInt32.ofNat (placesSize (Function.update places v (some p))) := by
  have hupdate := placesSize_update places hv (some p)
  rw [hnone] at hupdate
  change placesSize (Function.update places v (some p)) + 0 = placesSize places + p.getSize at hupdate
  rw [h, ← UInt32.ofNat_add, ← hupdate, Nat.add_zero]

theorem ofNat_placesSize_none {places : ℕ → Option RlcPdu} {size : UInt32} (h : size = UInt32.ofNat (placesSize places)) {v : ℕ}
    (hv : v < 1024) {p : RlcPdu} (hsome : places v = some p) :
    size - UInt32.ofNat p.getSize = UInt32.ofNat (placesSize (Function.update places v none)) := by
  have hupdate := placesSize_update places hv none
  rw [hsome] at hupdate
  change placesSize (Function.update places v none) + p.getSize = placesSize places + 0 at hupdate
  rw [h, ← Nat.add_zero (placesSize places), ← hupdate, UInt32.ofNat_add, UInt32.add_sub_cancel]

theorem exists_place {places : ℕ → Option RlcPdu} (h : placesSize places ≠ 0) : ∃ v p, places v = some p := by
  by_contra hnone
  refine h (Finset.sum_eq_zero fun v _ => ?_)
  cases hv : places v with
  | none => rfl
  | some p => exact absurd ⟨v, p, hv⟩ hnone

theorem eq_some_of_update_none {places : ℕ → Option RlcPdu} {v w : ℕ} {p : RlcPdu}
    (h : Function.update places w none v = some p) : places v = some p := by
  rw [Function.update_apply] at h
  split_ifs at h
  exact h

/-! ## The two buffers -/

/-- **The two buffers**: a PDU from `acked` on is in one of them until it is `learned` that it was received, and the counters are their
sizes. -/
structure Buffered (isPdu : ℕ → RlcPdu → Prop) (txed retx : ℕ → Option RlcPdu) (txedSize retxSize : UInt32) (acked assigned : ℕ)
    (learned : Finset ℕ) : Prop where
  order : acked ≤ assigned ∧ assigned ≤ acked + 512
  txedIn : ∀ v p, txed v = some p → ∃ n, acked ≤ n ∧ n < assigned ∧ v = n % 1024 ∧ isPdu n p
  retxIn : ∀ v p, retx v = some p → ∃ n, acked ≤ n ∧ n < assigned ∧ v = n % 1024 ∧ isPdu n p
  notBoth : ∀ v, txed v = none ∨ retx v = none
  learned_iff : ∀ n, acked ≤ n → n < assigned → (n ∈ learned ↔ txed (n % 1024) = none ∧ retx (n % 1024) = none)
  before : ∀ n < acked, n ∈ learned
  after : ∀ n ∈ learned, n < assigned
  txedSize : txedSize = UInt32.ofNat (placesSize txed)
  retxSize : retxSize = UInt32.ofNat (placesSize retx)

namespace Buffered

variable {isPdu : ℕ → RlcPdu → Prop} {txed retx : ℕ → Option RlcPdu} {txedSize retxSize : UInt32} {acked assigned n : ℕ}
  {learned : Finset ℕ}

variable (h : Buffered isPdu txed retx txedSize retxSize acked assigned learned)

include h

theorem swap :
    Buffered isPdu retx txed retxSize txedSize acked assigned learned :=
  ⟨h.order, h.retxIn, h.txedIn, fun v => (h.notBoth v).symm, fun n hn hn' => (h.learned_iff n hn hn').trans and_comm, h.before,
    h.after, h.retxSize, h.txedSize⟩

theorem notBoth_update (place : Option RlcPdu) (v : ℕ) :
    Function.update txed (n % 1024) none v = none ∨ Function.update retx (n % 1024) place v = none := by
  by_cases hvn : v = n % 1024
  · rw [hvn, Function.update_self]
    exact .inl rfl
  · rw [Function.update_of_ne hvn, Function.update_of_ne hvn]
    exact h.notBoth v

theorem move {p : RlcPdu} (hp : txed (n % 1024) = some p) :
    Buffered isPdu (Function.update txed (n % 1024) none) (Function.update retx (n % 1024) (some p))
      (txedSize - UInt32.ofNat p.getSize) (retxSize + UInt32.ofNat p.getSize) acked assigned learned := by
  have hv : n % 1024 < 1024 := Nat.mod_lt n (by omega)
  have hnone : retx (n % 1024) = none := (h.notBoth _).resolve_left (by rw [hp]; exact Option.some_ne_none p)
  refine ⟨h.order, fun v q hq => h.txedIn v q (eq_some_of_update_none hq), ?_, h.notBoth_update _, ?_, h.before, h.after, ofNat_placesSize_none h.txedSize hv hp,
    ofNat_placesSize_some h.retxSize hv hnone p⟩
  · intro v q hq
    rw [Function.update_apply] at hq
    split_ifs at hq with hvn
    · rw [hvn, ← Option.some_inj.mp hq]
      exact h.txedIn _ p hp
    · exact h.retxIn v q hq
  · intro m hm hm'
    rw [h.learned_iff m hm hm']
    by_cases hmn : m % 1024 = n % 1024
    · rw [hmn, Function.update_self, Function.update_self, hp]
      simp
    · rw [Function.update_of_ne hmn, Function.update_of_ne hmn]

theorem forget (hn : acked ≤ n) (hn' : n < assigned) {txedSize' retxSize' : UInt32}
    (htxed : txedSize' = UInt32.ofNat (placesSize (Function.update txed (n % 1024) none)))
    (hretx : retxSize' = UInt32.ofNat (placesSize (Function.update retx (n % 1024) none))) :
    Buffered isPdu (Function.update txed (n % 1024) none) (Function.update retx (n % 1024) none) txedSize' retxSize' acked assigned
      (insert n learned) := by
  have horder := h.order
  refine ⟨horder, fun v q hq => h.txedIn v q (eq_some_of_update_none hq), fun v q hq => h.retxIn v q (eq_some_of_update_none hq),
    h.notBoth_update _, ?_, fun m hm => Finset.mem_insert_of_mem (h.before m hm), ?_, htxed, hretx⟩
  · intro m hm hm'
    by_cases hmn : m % 1024 = n % 1024
    · have hplace : m = n := by omega
      rw [hplace, Function.update_self, Function.update_self]
      simp
    · rw [Function.update_of_ne hmn, Function.update_of_ne hmn, Finset.mem_insert, or_iff_right fun heq => hmn (by rw [heq]),
        h.learned_iff m hm hm']
  · intro m hm
    rcases Finset.mem_insert.mp hm with rfl | hm
    · exact hn'
    · exact h.after m hm

theorem store (hlt : assigned < acked + 512) {isPdu' : ℕ → RlcPdu → Prop} (hmono : ∀ n p, isPdu n p → isPdu' n p) {p : RlcPdu}
    (hp : isPdu' assigned p) :
    Buffered isPdu' (Function.update txed (assigned % 1024) (some p)) retx (txedSize + UInt32.ofNat p.getSize) retxSize acked
      (assigned + 1) learned := by
  have horder := h.order
  -- The place is empty, because the numbers of the window differ.
  have hempty : ∀ {buffer : ℕ → Option RlcPdu},
      (∀ v p, buffer v = some p → ∃ n, acked ≤ n ∧ n < assigned ∧ v = n % 1024 ∧ isPdu n p) → buffer (assigned % 1024) = none := by
    intro buffer hin
    rw [Option.eq_none_iff_forall_ne_some]
    intro q hq
    obtain ⟨m, hm, hm', hmod, -⟩ := hin _ q hq
    omega
  have hv : assigned % 1024 < 1024 := Nat.mod_lt assigned (by omega)
  have hnew : assigned ∉ learned := fun hmem => absurd (h.after assigned hmem) (lt_irrefl assigned)
  refine ⟨by omega, ?_, ?_, ?_, ?_, h.before, fun m hm => (h.after m hm).trans (Nat.lt_succ_self assigned),
    ofNat_placesSize_some h.txedSize hv (hempty h.txedIn) p, h.retxSize⟩
  · intro v q hq
    rw [Function.update_apply] at hq
    split_ifs at hq with hvn
    · exact ⟨assigned, horder.1, by omega, hvn, Option.some_inj.mp hq ▸ hp⟩
    · obtain ⟨m, hm, hm', hmod, hpdu⟩ := h.txedIn v q hq
      exact ⟨m, hm, by omega, hmod, hmono m q hpdu⟩
  · intro v q hq
    obtain ⟨m, hm, hm', hmod, hpdu⟩ := h.retxIn v q hq
    exact ⟨m, hm, by omega, hmod, hmono m q hpdu⟩
  · intro v
    by_cases hvn : v = assigned % 1024
    · rw [hvn]
      exact .inr (hempty h.retxIn)
    · rw [Function.update_of_ne hvn]
      exact h.notBoth v
  · intro m hm hm'
    rcases (Nat.lt_succ_iff.mp hm').eq_or_lt with rfl | hlt
    · rw [Function.update_self]
      simp [hnew]
    · rw [Function.update_of_ne (by omega), h.learned_iff m hm hlt]

/-- The first PDU was received. -/
theorem advance (hlt : acked < assigned) (hlearned : acked ∈ learned) :
    Buffered isPdu txed retx txedSize retxSize (acked + 1) assigned learned := by
  have horder := h.order
  obtain ⟨htxed, hretx⟩ := (h.learned_iff acked le_rfl hlt).mp hlearned
  have hnext : ∀ {buffer : ℕ → Option RlcPdu}, buffer (acked % 1024) = none →
      (∀ v p, buffer v = some p → ∃ n, acked ≤ n ∧ n < assigned ∧ v = n % 1024 ∧ isPdu n p) →
      ∀ v p, buffer v = some p → ∃ n, acked + 1 ≤ n ∧ n < assigned ∧ v = n % 1024 ∧ isPdu n p := by
    intro buffer hnone hin v p hp
    obtain ⟨n, hn, hn', hv, hpdu⟩ := hin v p hp
    refine ⟨n, ?_, hn', hv, hpdu⟩
    rcases hn.eq_or_lt with rfl | hlt
    · rw [hv, hnone] at hp
      exact absurd hp (by simp)
    · exact hlt
  refine ⟨by omega, hnext htxed h.txedIn, hnext hretx h.retxIn, h.notBoth, fun n hn hn' => h.learned_iff n (by omega) hn',
    fun n hn => ?_, h.after, h.txedSize, h.retxSize⟩
  rcases (Nat.lt_succ_iff.mp hn).eq_or_lt with rfl | hlt
  · exact hlearned
  · exact h.before n hlt

end Buffered

/-! ## The invariant -/

/-- **The transmitting side**: its variables are the numbers `acked` and `assigned`, compared from `acked` on. -/
structure Outstanding (isPdu : ℕ → RlcPdu → Prop) (s : RlcAmSender) (acked assigned : ℕ) (learned : Finset ℕ) : Prop where
  windowSize : s.windowSize = 512
  vtA : s.vtA = numbered acked acked
  vtMs : s.vtMs = numbered acked (acked + 512)
  vtS : s.vtS = numbered acked assigned
  buffered : Buffered isPdu s.txedBuffer s.retxBuffer s.txedBufferSize s.retxBufferSize acked assigned learned
  good : ∃ cut, s.txon.Good cut

/-- What a report on the numbers from `n` to `ackSn` says of those that it does not report as missing. -/
def reported (nacks : List ℕ) (n ackSn : ℕ) : Finset ℕ := {m ∈ Finset.Ico n ackSn | m % 1024 ∉ nacks}

theorem mem_reported {nacks : List ℕ} {n ackSn m : ℕ} : m ∈ reported nacks n ackSn ↔ n ≤ m ∧ m < ackSn ∧ m % 1024 ∉ nacks := by
  rw [reported, Finset.mem_filter, Finset.mem_Ico, and_assoc]

/-- The first of the numbers. -/
theorem union_reported {nacks : List ℕ} {n ackSn : ℕ} (h : n < ackSn) (learned : Finset ℕ) :
    (if n % 1024 ∈ nacks then learned else insert n learned) ∪ reported nacks (n + 1) ackSn = learned ∪ reported nacks n ackSn := by
  ext m
  rw [Finset.mem_union, Finset.mem_union, mem_reported, mem_reported]
  split_ifs with hmem
  · grind
  · grind

namespace Outstanding

variable {isPdu : ℕ → RlcPdu → Prop} {s : RlcAmSender} {acked assigned n : ℕ} {learned : Finset ℕ}

theorem moveToRetx (h : Outstanding isPdu s acked assigned learned) {p : RlcPdu} (hp : s.txedBuffer (n % 1024) = some p) :
    Outstanding isPdu (s.moveToRetx (n % 1024) p) acked assigned learned :=
  ⟨h.windowSize, h.vtA, h.vtMs, h.vtS, h.buffered.move hp, h.good⟩

theorem moveToTxed (h : Outstanding isPdu s acked assigned learned) {p : RlcPdu} (hp : s.retxBuffer (n % 1024) = some p) :
    Outstanding isPdu (s.moveToTxed (n % 1024) p) acked assigned learned :=
  ⟨h.windowSize, h.vtA, h.vtMs, h.vtS, (h.buffered.swap.move hp).swap, h.good⟩

/-! ## A status report -/

section

variable (h : Outstanding isPdu s acked assigned learned)

include h

/-- A PDU that is reported as missing is in `m_retxBuffer` then. -/
theorem nack (hn : acked ≤ n) (hn' : n < assigned) (hlearned : n ∉ learned) :
    ∃ s', s.nack (n % 1024) = some s' ∧ Outstanding isPdu s' acked assigned learned := by
  rw [RlcAmSender.nack]
  cases hp : s.txedBuffer (n % 1024) with
  | some p =>
    refine ⟨s.moveToRetx (n % 1024) p, if_pos ?_, h.moveToRetx hp⟩
    show (Function.update s.retxBuffer (n % 1024) (some p) (n % 1024)).isSome = true
    rw [Function.update_self]
    rfl
  | none =>
    have hretx : s.retxBuffer (n % 1024) ≠ none := fun hnone => hlearned ((h.buffered.learned_iff n hn hn').mpr ⟨hp, hnone⟩)
    exact ⟨s, if_pos (Option.isSome_iff_ne_none.mpr hretx), h⟩

theorem ack (hn : acked ≤ n) (hn' : n < assigned) :
    ∃ s', s.ack (n % 1024) = some s' ∧ Outstanding isPdu s' acked assigned (insert n learned) := by
  have hv : n % 1024 < 1024 := Nat.mod_lt n (by omega)
  have hsame : ∀ {buffer : ℕ → Option RlcPdu}, buffer (n % 1024) = none → Function.update buffer (n % 1024) none = buffer :=
    fun hnone => by rw [← hnone, Function.update_eq_self]
  have hb := h.buffered
  rw [RlcAmSender.ack, RlcAmSender.forgetTxed]
  cases hp : s.txedBuffer (n % 1024) with
  | some p =>
    have hnone : s.retxBuffer (n % 1024) = none := (hb.notBoth _).resolve_left (by rw [hp]; exact Option.some_ne_none p)
    have hforget := hb.forget hn hn' (ofNat_placesSize_none hb.txedSize hv hp) (hb.retxSize.trans (by rw [hsame hnone]))
    rw [hsame hnone] at hforget
    refine ⟨_, congrArg _ (if_pos (by rw [hnone]; rfl)), ?_⟩
    show Outstanding isPdu (RlcAmSender.forgetRetx _ _) _ _ _
    rw [RlcAmSender.forgetRetx]
    split
    · next q hq => exact absurd (hnone.symm.trans hq) (by simp)
    · exact ⟨h.windowSize, h.vtA, h.vtMs, h.vtS, hforget, h.good⟩
  | none =>
    refine ⟨_, rfl, ?_⟩
    cases hq : s.retxBuffer (n % 1024) with
    | none =>
      have hforget := hb.forget hn hn' (hb.txedSize.trans (by rw [hsame hp])) (hb.retxSize.trans (by rw [hsame hq]))
      rw [hsame hp, hsame hq] at hforget
      simp only [RlcAmSender.forgetRetx, hq]
      exact ⟨h.windowSize, h.vtA, h.vtMs, h.vtS, hforget, h.good⟩
    | some q =>
      have hforget := hb.forget hn hn' (hb.txedSize.trans (by rw [hsame hp])) (ofNat_placesSize_none hb.retxSize hv hq)
      rw [hsame hp] at hforget
      simp only [RlcAmSender.forgetRetx, hq]
      exact ⟨h.windowSize, h.vtA, h.vtMs, h.vtS, hforget, h.good⟩

theorem stopPoll (value : ℕ) : Outstanding isPdu (s.stopPoll value) acked assigned learned := by
  rw [RlcAmSender.stopPoll]
  split_ifs
  · exact ⟨h.windowSize, h.vtA, h.vtMs, h.vtS, h.buffered, h.good⟩
  · exact h

/-- `VT(A)` moves over a PDU that was received. -/
theorem incrementVtA (hlt : acked < assigned) (hlearned : acked ∈ learned) :
    Outstanding isPdu s.incrementVtA (acked + 1) assigned learned := by
  refine ⟨h.windowSize, ?_, ?_, ?_, h.buffered.advance hlt hlearned, h.good⟩
  · rw [RlcAmSender.incrementVtA, h.vtA, succ_numbered]
    rfl
  · rw [RlcAmSender.incrementVtA, h.vtA, h.windowSize, succ_numbered, add_numbered]
    rfl
  · rw [RlcAmSender.incrementVtA, h.vtA, h.vtS, succ_numbered]
    rfl

variable {nacks : List ℕ}

theorem processStatus (hn : acked ≤ n) (hn' : n < assigned) (hnacks : n % 1024 ∈ nacks → n ∉ learned) :
    ∃ s', s.processStatus nacks (n % 1024) = some s' ∧
      Outstanding isPdu s' acked assigned (if n % 1024 ∈ nacks then learned else insert n learned) := by
  rw [RlcAmSender.processStatus]
  split_ifs with hmem
  · exact (h.stopPoll (n % 1024)).nack hn hn' (hnacks hmem)
  · exact (h.stopPoll (n % 1024)).ack hn hn'

/-- **The loop over a report**: what is not reported as missing is learned, and `VT(A)` moves as far as all is learned. -/
theorem statusLoop {ackSn : ℕ} {increment : Bool} (hn : acked ≤ n) (hn' : n ≤ ackSn) (hack : ackSn ≤ assigned)
    (hincrement : increment = true → n = acked) (hnacks : ∀ m, n ≤ m → m < ackSn → m % 1024 ∈ nacks → m ∉ learned) (fuel : ℕ)
    (hfuel : ackSn < n + fuel) :
    ∃ s' acked', RlcAmSender.statusLoop nacks fuel s (numbered acked ackSn) (numbered acked n) increment = some s' ∧
      acked ≤ acked' ∧ Outstanding isPdu s' acked' assigned (learned ∪ reported nacks n ackSn) := by
  have horder := h.buffered.order
  induction fuel generalizing s acked n learned increment with
  | zero => omega
  | succ fuel ih =>
    rw [RlcAmSender.statusLoop, lt_numbered hn (by omega) (by omega) (by omega), Option.bind_some]
    rcases hn'.eq_or_lt with rfl | hlt
    · refine ⟨s, acked, by rw [decide_eq_false (lt_irrefl n), if_neg Bool.false_ne_true], le_rfl, ?_⟩
      rwa [reported, Finset.Ico_self, Finset.filter_empty, Finset.union_empty]
    · rw [decide_eq_true hlt, if_pos rfl, h.vtS, lt_numbered hn (by omega) (by omega) (by omega), decide_eq_true (hlt.trans_le hack),
        Option.bind_some, if_pos rfl]
      obtain ⟨s1, hs1, h1⟩ := h.processStatus hn (hlt.trans_le hack) (hnacks n le_rfl hlt)
      have hnacks' : ∀ m, n + 1 ≤ m → m < ackSn → m % 1024 ∈ nacks →
          m ∉ if n % 1024 ∈ nacks then learned else insert n learned := by
        intro m hm hm' hmem
        have hnot := hnacks m (by omega) hm' hmem
        split_ifs
        · exact hnot
        · rw [Finset.mem_insert, not_or]
          exact ⟨by omega, hnot⟩
      rw [value_numbered, hs1, Option.bind_some, ← union_reported hlt]
      by_cases hand : increment = true ∧ n % 1024 ∉ nacks
      · -- What is reported as missing stops `VT(A)`.
        obtain rfl := hincrement hand.1
        have hlearned : n ∈ if n % 1024 ∈ nacks then learned else insert n learned := by
          rw [if_neg hand.2]
          exact Finset.mem_insert_self n learned
        have h2 := h1.incrementVtA (hlt.trans_le hack) hlearned
        obtain ⟨s', acked', hrun, hle, hout⟩ := ih h2 le_rfl hlt (fun _ => rfl) hnacks' (by omega) h2.buffered.order
        refine ⟨s', acked', ?_, by omega, hout⟩
        have hvalue : s1.incrementVtA.vtA.value = (n + 1) % 1024 := by rw [h2.vtA, value_numbered]
        rw [if_pos hand]
        show RlcAmSender.statusLoop nacks fuel s1.incrementVtA ((numbered n ackSn).setModulusBase s1.incrementVtA.vtA.value)
          ((numbered n n).setModulusBase s1.incrementVtA.vtA.value).succ true = some s'
        rw [hvalue, setModulusBase_numbered, setModulusBase_numbered, succ_numbered]
        exact hrun
      · rw [if_neg hand, succ_numbered]
        exact ih h1 (by omega) hlt (fun hfalse => absurd hfalse Bool.false_ne_true) hnacks' (by omega) horder

theorem setModulusBase_eq :
    ({ s with
      vtA := s.vtA.setModulusBase s.vtA.value
      vtS := s.vtS.setModulusBase s.vtA.value
      vtMs := s.vtMs.setModulusBase s.vtA.value } : RlcAmSender) = s := by
  have hvtA : s.vtA.setModulusBase s.vtA.value = s.vtA := by rw [h.vtA]; rfl
  have hvtS : s.vtS.setModulusBase s.vtA.value = s.vtS := by rw [h.vtS, h.vtA]; rfl
  have hvtMs : s.vtMs.setModulusBase s.vtA.value = s.vtMs := by rw [h.vtMs, h.vtA]; rfl
  rw [hvtA, hvtS, hvtMs]

/-- **A report that is not older than what is learned.** -/
theorem receiveStatus {ackSn : ℕ} (hack : acked ≤ ackSn) (hack' : ackSn ≤ assigned)
    (hnacks : ∀ m, acked ≤ m → m < ackSn → m % 1024 ∈ nacks → m ∉ learned) :
    ∃ s' acked', s.receiveStatus (ofValue ackSn) nacks = some s' ∧ acked ≤ acked' ∧
      Outstanding isPdu s' acked' assigned (learned ∪ reported nacks acked ackSn) := by
  have horder := h.buffered.order
  rw [RlcAmSender.receiveStatus, h.setModulusBase_eq]
  obtain ⟨s', acked', hrun, hle, hout⟩ := h.statusLoop le_rfl hack hack' (fun _ : true = true => rfl) hnacks 1024 (by omega)
  refine ⟨s', acked', ?_, hle, hout⟩
  rw [h.vtA]
  exact hrun

end

theorem receiveStatus_idle (h : Outstanding isPdu s acked acked learned) (ackSn : ℕ) (nacks : List ℕ) :
    s.receiveStatus (ofValue ackSn) nacks = some s := by
  rw [RlcAmSender.receiveStatus, h.setModulusBase_eq, RlcAmSender.statusLoop, h.vtA, value_numbered, setModulusBase_ofValue]
  obtain ⟨k, hk⟩ : ∃ k, (numbered acked acked).lt (numbered acked ackSn) = some k := by
    rw [SequenceNumber10.lt, SequenceNumber10.gt, if_pos (by rfl)]
    exact ⟨_, rfl⟩
  rw [hk, Option.bind_some, h.vtS, lt_numbered le_rfl (by omega) le_rfl (by omega), decide_eq_false (lt_irrefl acked)]
  cases k <;> rfl

/-- The loop moves what waits to `m_retxBuffer`. -/
theorem moveAll (h : Outstanding isPdu s acked assigned learned) (hn : acked ≤ n) (hn' : n ≤ assigned) (fuel : ℕ)
    (hfuel : assigned < n + fuel) :
    ∃ s', RlcAmSender.moveAll fuel s (numbered acked n) = some s' ∧ Outstanding isPdu s' acked assigned learned := by
  have horder := h.buffered.order
  induction fuel generalizing s n with
  | zero => omega
  | succ fuel ih =>
    rw [RlcAmSender.moveAll, h.vtS, lt_numbered hn (by omega) (by omega) (by omega), Option.bind_some]
    rcases hn'.eq_or_lt with rfl | hlt
    · exact ⟨s, by rw [decide_eq_false (lt_irrefl n), if_neg Bool.false_ne_true], h⟩
    · rw [decide_eq_true hlt, if_pos rfl, value_numbered, succ_numbered]
      cases hp : s.txedBuffer (n % 1024) with
      | some p => exact ih (h.moveToRetx hp) (by omega) hlt (by omega)
      | none => exact ih h (by omega) hlt (by omega)

theorem expire (h : Outstanding isPdu s acked assigned learned) :
    ∃ s', s.expirePollRetransmitTimer = some s' ∧ Outstanding isPdu s' acked assigned learned := by
  have horder := h.buffered.order
  have h1 : Outstanding isPdu { s with pollRetransmitTimer := false, pollRetransmitTimerJustExpired := true } acked assigned learned :=
    ⟨h.windowSize, h.vtA, h.vtMs, h.vtS, h.buffered, h.good⟩
  have hinWindow : s.vtS.le s.vtMs = some true := by
    rw [h.vtS, h.vtMs, le_numbered (by omega) (by omega) (by omega) (by omega), decide_eq_true horder.2]
  rw [RlcAmSender.expirePollRetransmitTimer]
  show ∃ s', ((s.vtS.le s.vtMs).bind fun inWindow => _) = some s' ∧ _
  rw [hinWindow, Option.bind_some, if_pos rfl]
  split_ifs
  · obtain ⟨s', hrun, hout⟩ := h1.moveAll le_rfl horder.1 1024 (by omega)
    rw [← h1.vtA] at hrun
    exact ⟨s', hrun, hout⟩
  · exact ⟨_, rfl, h1⟩

/-! ## A transmission opportunity -/

variable (h : Outstanding isPdu s acked assigned learned)

include h

theorem poll (pollingBit : Bool) : Outstanding isPdu (if pollingBit then s.poll else s) acked assigned learned := by
  cases pollingBit with
  | true => exact ⟨h.windowSize, h.vtA, h.vtMs, h.vtS, h.buffered, h.good⟩
  | false => exact h

/-- The first PDU of `m_retxBuffer` from number `n` on. -/
theorem findRetx (hn : acked ≤ n) (hn' : n ≤ assigned) (fuel : ℕ) (hfuel : assigned < n + fuel) :
    (∃ m p, n ≤ m ∧ m < assigned ∧ s.retxBuffer (m % 1024) = some p ∧
      s.findRetx fuel (numbered acked n) = some (some (m % 1024, p))) ∨
    ((∀ m, n ≤ m → m < assigned → s.retxBuffer (m % 1024) = none) ∧ s.findRetx fuel (numbered acked n) = some none) := by
  have horder := h.buffered.order
  induction fuel generalizing n with
  | zero => omega
  | succ fuel ih =>
    rw [RlcAmSender.findRetx, h.vtS, lt_numbered hn (by omega) (by omega) (by omega), Option.bind_some]
    rcases hn'.eq_or_lt with rfl | hlt
    · exact .inr ⟨fun m hm hm' => absurd hm' (Nat.not_lt.mpr hm), by rw [decide_eq_false (lt_irrefl n), if_neg Bool.false_ne_true]⟩
    · rw [decide_eq_true hlt, if_pos rfl, value_numbered, succ_numbered]
      cases hp : s.retxBuffer (n % 1024) with
      | some p => exact .inl ⟨n, p, le_rfl, hlt, hp, rfl⟩
      | none =>
        rcases ih (n := n + 1) (by omega) hlt (by omega) with ⟨m, p, hm, hm', hfound, hrun⟩ | ⟨hnone, hrun⟩
        · exact .inl ⟨m, p, by omega, hm', hfound, hrun⟩
        · refine .inr ⟨fun m hm hm' => ?_, hrun⟩
          rcases hm.eq_or_lt with rfl | hlt'
          · exact hp
          · exact hnone m hlt' hm'

theorem retransmit (hpos : s.retxBufferSize > 0) (bytes : ℕ)
    (hbit : ∀ n p pollingBit, isPdu n p → isPdu n { p with header := { p.header with pollingBit := pollingBit } }) :
    ∃ s' out, s.retransmit bytes = some (s', out) ∧ Outstanding isPdu s' acked assigned learned ∧
      ∀ p, out = some p → ∃ n, acked ≤ n ∧ n < assigned ∧ isPdu n p := by
  have horder := h.buffered.order
  have hsize : placesSize s.retxBuffer ≠ 0 := by
    intro hzero
    rw [h.buffered.retxSize, hzero] at hpos
    exact absurd hpos (by decide)
  obtain ⟨v, q, hq⟩ := exists_place hsize
  obtain ⟨k, hk, hk', rfl, -⟩ := h.buffered.retxIn v q hq
  have houtstanding : s.vtA.lt s.vtS = some true := by
    rw [h.vtA, h.vtS, lt_numbered le_rfl (by omega) (by omega) (by omega), decide_eq_true (hk.trans_lt hk')]
  rw [RlcAmSender.retransmit, houtstanding, Option.bind_some, if_pos rfl, h.vtA]
  rcases h.findRetx le_rfl horder.1 1024 (by omega) with ⟨n, p, hn, hn', hp, hfound⟩ | ⟨hnone, -⟩
  · rw [hfound, Option.bind_some, Option.bind_some]
    split_ifs with hfits
    · obtain ⟨stalled, hstalled⟩ : ∃ stalled, s.vtS.ge s.vtMs = some stalled := by
        rw [h.vtS, h.vtMs, ge_numbered (by omega) (by omega) (by omega) (by omega)]
        exact ⟨_, rfl⟩
      obtain ⟨pollingBit, hneeded⟩ := RlcAmSender.pollNeeded_eq_some hstalled
        (s.txon.txBuffer.isEmpty && s.retxBufferSize = UInt32.ofNat p.getSize)
      refine ⟨_, _, Option.map_eq_some_iff.mpr ⟨pollingBit, hneeded, rfl⟩, (h.poll pollingBit).moveToTxed ?_, ?_⟩
      · cases pollingBit <;> exact hp
      · intro p' hp'
        obtain ⟨m, hm, hm', hmod, hpdu⟩ := h.buffered.retxIn _ p hp
        rw [← Option.some_inj.mp hp']
        exact ⟨m, hm, hm', hbit m p pollingBit hpdu⟩
    · exact ⟨s, none, rfl, h, fun p' hp' => absurd hp' (by simp)⟩
  · rw [hnone k hk hk'] at hq
    exact absurd hq (by simp)

/-- A new PDU has the next number, unless nothing is sent. -/
theorem transmitNew {bytes : ℕ} (hbytes : 7 ≤ bytes) :
    s.transmitNew bytes = some (s, none) ∨ ∃ s' p, s.transmitNew bytes = some (s', some p) ∧
      p.header.sequenceNumber.value = assigned % 1024 ∧ ∀ isPdu' : ℕ → RlcPdu → Prop, (∀ n p, isPdu n p → isPdu' n p) →
        isPdu' assigned p → Outstanding isPdu' s' acked (assigned + 1) learned := by
  have horder := h.buffered.order
  obtain ⟨cut, hgood⟩ := h.good
  have hinWindow : s.vtS.le s.vtMs = some true := by
    rw [h.vtS, h.vtMs, le_numbered (by omega) (by omega) (by omega) (by omega), decide_eq_true horder.2]
  rw [RlcAmSender.transmitNew, hinWindow, Option.bind_some, if_pos rfl]
  split_ifs with hstalled
  · exact .inl rfl
  · have hlt : assigned < acked + 512 := by
      refine lt_of_le_of_ne horder.2 fun heq => hstalled ?_
      rw [h.vtS, h.vtMs, heq]
    by_cases hne : s.txon.txBuffer = []
    · have hbuild : s.txon.buildPdu .am bytes s.vtS = some (s.txon, none) := by rw [TxBuffer.buildPdu, hne]
      rw [hbuild]
      exact .inl rfl
    · obtain ⟨t', pdu, taken, more, hbuild, -, hgood', -, hnumber, -⟩ :=
        TxBuffer.buildPdu_spec hgood hne (show RlcMode.am.fixedPart < bytes from by show 4 < bytes; omega) s.vtS
      have hsucc : s.vtS.succ = numbered acked (assigned + 1) := by rw [h.vtS, succ_numbered]
      have hbelow : s.vtS.lt s.vtMs = some true := by
        rw [h.vtS, h.vtMs, lt_numbered (by omega) (by omega) (by omega) (by omega), decide_eq_true hlt]
      have habove : s.vtS.ge s.vtA = some true := by
        rw [h.vtS, h.vtA, ge_numbered (by omega) (by omega) (by omega) (by omega), decide_eq_true horder.1]
      have hpoll : s.vtS.succ.ge s.vtMs = some (decide (acked + 512 ≤ assigned + 1)) := by
        rw [hsucc, h.vtMs, ge_numbered (by omega) (by omega) (by omega) (by omega)]
      obtain ⟨⟨s', out⟩, hsend⟩ := RlcAmSender.sendNew_eq_some (s := { s with txon := t', vtS := s.vtS.succ }) hpoll s.vtS pdu
      obtain ⟨pollingBit, hout, hs'⟩ := RlcAmSender.sendNew_cases hsend
      have hvalue : s.vtS.value = assigned % 1024 := by rw [h.vtS, value_numbered]
      refine .inr ⟨s', { pdu with header := { pdu.header with pollingBit := pollingBit } }, ?_, ?_, fun isPdu' hmono hpdu => ?_⟩
      · rw [hbuild, ← hout]
        show ((s.vtS.lt s.vtMs).bind fun belowMs => (s.vtS.ge s.vtA).bind fun aboveA => _) = _
        rw [hbelow, Option.bind_some, habove, Option.bind_some, if_pos ⟨rfl, rfl⟩, hsend]
      · show pdu.header.sequenceNumber.value = _
        rw [hnumber, hvalue]
      · have hstore := h.buffered.store hlt hmono hpdu
        rw [hs', hvalue]
        cases pollingBit <;> exact ⟨h.windowSize, h.vtA, h.vtMs, hsucc, hstore, more, hgood'⟩

theorem notifyTxOpportunity (bytes : ℕ)
    (hbit : ∀ n p pollingBit, isPdu n p → isPdu n { p with header := { p.header with pollingBit := pollingBit } }) :
    (∃ s' out, s.notifyTxOpportunity bytes = some (s', out) ∧ Outstanding isPdu s' acked assigned learned ∧
      ∀ p, out = some p → ∃ n, acked ≤ n ∧ n < assigned ∧ isPdu n p) ∨
    ∃ s' p, s.notifyTxOpportunity bytes = some (s', some p) ∧ p.header.sequenceNumber.value = assigned % 1024 ∧
      ∀ isPdu' : ℕ → RlcPdu → Prop, (∀ n p, isPdu n p → isPdu' n p) → isPdu' assigned p →
        Outstanding isPdu' s' acked (assigned + 1) learned := by
  have hidle : ∃ s' out, some (s, none) = some (s', out) ∧ Outstanding isPdu s' acked assigned learned ∧
      ∀ p, out = some p → ∃ n, acked ≤ n ∧ n < assigned ∧ isPdu n p := ⟨s, none, rfl, h, fun p hp => absurd hp (by simp)⟩
  rw [RlcAmSender.notifyTxOpportunity]
  split_ifs with hfew hretx htxon hsmall
  · exact .inl hidle
  · exact .inl (h.retransmit hretx bytes hbit)
  · exact .inl hidle
  · rcases h.transmitNew (Nat.not_lt.mp hsmall) with hrun | hnew
    · rw [hrun]
      exact .inl hidle
    · exact .inr hnew
  · exact .inl hidle

theorem transmitPdcpPdu {sdu : List UInt8} (hsdu : sdu ≠ []) :
    Outstanding isPdu (s.transmitPdcpPdu sdu) acked assigned learned := by
  rw [RlcAmSender.transmitPdcpPdu]
  split_ifs
  · obtain ⟨cut, hgood⟩ := h.good
    exact ⟨h.windowSize, h.vtA, h.vtMs, h.vtS, h.buffered, cut, hgood.add hsdu⟩
  · exact h

end Outstanding

end Ns3Ndn.Lte
