import Ns3Ndn.Sixlowpan.IphcAddresses

/-!
# Compressed headers that are decompressed

* `Modes`: the fields of the base format, each of which is written once;
* `SrcWritten`, `DstWritten`: what the compression of an address writes, **`compressSrc_spec`**, **`compressDst_spec`**: what is made of it;
* **`roundTrip_iff`**: without contexts, when a packet is restored, and when the size of a header is the one that is written and read;
* **`restoresAddresses_iff`**: with contexts, when both addresses are restored.
-/

namespace Ns3Ndn.Sixlowpan

open BytesLib BitFieldLib Internet

/-! ## The base format -/

/-- The fields of the base format. -/
structure Modes where
  tf : TrafficClassFlowLabel
  nh : Bool
  hlim : Hlim
  cid : Bool
  sac : Bool
  sam : HeaderCompression
  m : Bool
  dac : Bool
  dam : HeaderCompression

namespace Modes

variable (k : Modes)

def baseFormat : ℕ :=
  0x6000 ||| k.tf.code <<< 11 ||| k.nh.toNat <<< 10 ||| k.hlim.code <<< 8 ||| k.cid.toNat <<< 7 ||| k.sac.toNat <<< 6 |||
    k.sam.code <<< 4 ||| k.m.toNat <<< 3 ||| k.dac.toNat <<< 2 ||| k.dam.code <<< 0

theorem field_baseFormat (shift width : ℕ) : field shift width k.baseFormat =
    field shift width 0x6000 ||| field shift width (k.tf.code <<< 11) ||| field shift width (k.nh.toNat <<< 10) |||
      field shift width (k.hlim.code <<< 8) ||| field shift width (k.cid.toNat <<< 7) ||| field shift width (k.sac.toNat <<< 6) |||
      field shift width (k.sam.code <<< 4) ||| field shift width (k.m.toNat <<< 3) ||| field shift width (k.dac.toNat <<< 2) |||
      field shift width (k.dam.code <<< 0) := by
  unfold baseFormat
  simp only [field_or]

theorem widths : k.tf.code < 2 ^ 2 ∧ k.nh.toNat < 2 ^ 1 ∧ k.hlim.code < 2 ^ 2 ∧ k.cid.toNat < 2 ^ 1 ∧ k.sac.toNat < 2 ^ 1 ∧
    k.sam.code < 2 ^ 2 ∧ k.m.toNat < 2 ^ 1 ∧ k.dac.toNat < 2 ^ 1 ∧ k.dam.code < 2 ^ 2 :=
  ⟨k.tf.code_lt, k.nh.toNat_lt, k.hlim.code_lt, k.cid.toNat_lt, k.sac.toNat_lt, k.sam.code_lt, k.m.toNat_lt, k.dac.toNat_lt,
    k.dam.code_lt⟩

theorem fields : field 11 2 k.baseFormat = k.tf.code ∧ field 10 1 k.baseFormat = k.nh.toNat ∧ field 8 2 k.baseFormat = k.hlim.code ∧
    field 7 1 k.baseFormat = k.cid.toNat ∧ field 6 1 k.baseFormat = k.sac.toNat ∧ field 4 2 k.baseFormat = k.sam.code ∧
    field 3 1 k.baseFormat = k.m.toNat ∧ field 2 1 k.baseFormat = k.dac.toNat ∧ field 0 2 k.baseFormat = k.dam.code := by
  obtain ⟨htf, hnh, hhlim, hcid, hsac, hsam, hm, hdac, hdam⟩ := k.widths
  have hconst : ∀ shift width, shift + width ≤ 13 → field shift width 0x6000 = 0 := fun shift width hle =>
    field_below (v := 3) hle
  simp only [field_baseFormat]
  simp (disch := first | decide | assumption) only [hconst, field_shiftLeft, @field_above _ _ _ 1, @field_above _ _ _ 2,
    field_below, Nat.zero_or, Nat.or_zero, and_self]

theorem baseFormat_lt : k.baseFormat < 2 ^ 16 := by
  obtain ⟨htf, hnh, hhlim, hcid, hsac, hsam, hm, hdac, hdam⟩ := k.widths
  unfold baseFormat
  apply Nat.or_lt_two_pow _ (shiftLeft_lt hdam (by decide))
  apply Nat.or_lt_two_pow _ (shiftLeft_lt hdac (by decide))
  apply Nat.or_lt_two_pow _ (shiftLeft_lt hm (by decide))
  apply Nat.or_lt_two_pow _ (shiftLeft_lt hsam (by decide))
  apply Nat.or_lt_two_pow _ (shiftLeft_lt hsac (by decide))
  apply Nat.or_lt_two_pow _ (shiftLeft_lt hcid (by decide))
  apply Nat.or_lt_two_pow _ (shiftLeft_lt hhlim (by decide))
  apply Nat.or_lt_two_pow _ (shiftLeft_lt hnh (by decide))
  exact Nat.or_lt_two_pow (by decide) (shiftLeft_lt htf (by decide))

/-- A header has these modes. -/
structure Of (h : SixLowPanIphc) : Prop where
  tf : h.getTf = k.tf
  nh : h.getNh = k.nh
  hlim : h.getHlim = k.hlim
  cid : h.getCid = k.cid
  sac : h.getSac = k.sac
  sam : h.getSam = k.sam
  m : h.getM = k.m
  dac : h.getDac = k.dac
  dam : h.getDam = k.dam

variable {k}

theorem Of.of_baseFormat {h : SixLowPanIphc} (hb : h.baseFormat = k.baseFormat) : k.Of h := by
  obtain ⟨htf, hnh, hhlim, hcid, hsac, hsam, hm, hdac, hdam⟩ := k.fields
  rw [← hb] at htf hnh hhlim hcid hsac hsam hm hdac hdam
  have hbit : ∀ (n : ℕ) (b : Bool), n = b.toNat → decide (n ≠ 0) = b := by
    rintro n (_ | _) rfl <;> rfl
  constructor
  · exact (congrArg TrafficClassFlowLabel.ofCode htf).trans k.tf.ofCode_code
  · exact hbit _ _ hnh
  · exact (congrArg Hlim.ofCode hhlim).trans k.hlim.ofCode_code
  · exact hbit _ _ hcid
  · exact hbit _ _ hsac
  · exact (congrArg HeaderCompression.ofCode hsam).trans k.sam.ofCode_code
  · exact hbit _ _ hm
  · exact hbit _ _ hdac
  · exact (congrArg HeaderCompression.ofCode hdam).trans k.dam.ofCode_code

end Modes

/-! ## Contexts -/

namespace ContextTable

variable {table : ContextTable} {now : ℕ}

/-- The identifiers are different and have four bits, and the prefixes have no other bits than theirs. -/
structure Valid (table : ContextTable) : Prop where
  nodup : (table.map Prod.fst).Nodup
  id_lt : ∀ c ∈ table, c.1 < 16
  hostBitsZero : ∀ c ∈ table, HostBitsZero c.2.contextPrefix

def Unexpired (table : ContextTable) (now : ℕ) : Prop := ∀ c ∈ table, now < c.2.validLifetime

theorem lookup_of_mem {α : Type} {l : List (UInt8 × α)} (hnodup : (l.map Prod.fst).Nodup) {c : UInt8 × α} (hc : c ∈ l) :
    l.lookup c.1 = some c.2 := by
  induction l with
  | nil => cases hc
  | cons d l ih =>
    rw [List.map_cons, List.nodup_cons] at hnodup
    rcases List.mem_cons.mp hc with rfl | hc
    · exact List.lookup_cons_self
    · have hne : c.1 ≠ d.1 := fun heq => hnodup.1 (heq ▸ List.mem_map_of_mem hc)
      rw [List.lookup_cons, beq_false_of_ne hne]
      exact ih hnodup.2 hc

theorem valid?_of_mem (hv : table.Valid) (hu : table.Unexpired now) {c : UInt8 × ContextEntry} (hc : c ∈ table) :
    table.valid? now c.1 = some c.2 := by
  have hlt : ¬ c.2.validLifetime < now := (hu c hc).not_gt
  unfold valid?
  rw [lookup_of_mem hv.nodup hc, Option.filter_some, decide_eq_false hlt]
  rfl

end ContextTable

/-! ## Unicast addresses -/

/-- The number of bytes of a unicast address. -/
def HeaderCompression.width : HeaderCompression → ℕ
  | .inline => 16
  | .compr64 => 8
  | .compr16 => 2
  | .compr0 => 0

section Unicast

variable {β : Type} (link : LinkAddress) (a : Ipv6Address) (f : HeaderCompression → Vector UInt8 16 → β) (old : Vector UInt8 16)

/-- What is written of an address with a context, and when a copy of it is restored. -/
theorem stateful_spec {pref : Ipv6Prefix} (hhost : HostBitsZero pref) : ∃ mode part, mode ≠ .inline ∧
    (if Ipv6Address.makeAutoconfiguredAddress link pref.bytes = a then f .compr0 old
      else if isShortIid (cleanPrefix a pref) then f .compr16 (memcpy old 0 (slice (cleanPrefix a pref) 14 2))
      else f .compr64 (memcpy old 0 (slice (cleanPrefix a pref) 8 8))) = f mode part ∧
    ∀ bytes, slice bytes 0 mode.width = slice part 0 mode.width →
      (decompressStateful link pref mode bytes = a ↔ Lossless link pref a) := by
  by_cases hauto : Ipv6Address.makeAutoconfiguredAddress link pref.bytes = a
  · refine ⟨.compr0, old, by decide, if_pos hauto, fun bytes _ => ?_⟩
    rw [decompressStateful_auto_iff hhost hauto, Lossless, if_pos hauto]
  rw [if_neg hauto]
  by_cases hshort : isShortIid (cleanPrefix a pref) = true
  · refine ⟨.compr16, _, by decide, if_pos hshort, fun bytes hpart => ?_⟩
    rw [HeaderCompression.width, slice_memcpy _ (length_slice _ (by decide)) (by decide)] at hpart
    rw [decompressStateful_iff hhost (.inl ⟨rfl, hshort, hpart⟩), Lossless, if_neg hauto]
  · refine ⟨.compr64, _, by decide, if_neg hshort, fun bytes hpart => ?_⟩
    rw [HeaderCompression.width, slice_memcpy _ (length_slice _ (by decide)) (by decide)] at hpart
    rw [decompressStateful_iff hhost (.inr ⟨rfl, hpart⟩), Lossless, if_neg hauto]

theorem stateless_spec : ∃ mode part,
    (if a = Ipv6Address.makeAutoconfiguredLinkLocalAddress link then f .compr0 old
      else if Ipv6Address.samePrefix a unicastAddrChecker 0 14 then f .compr16 (memcpy old 0 (slice a 14 2))
      else if a.isLinkLocal then f .compr64 (memcpy old 0 (slice a 8 8))
      else f .inline (memcpy old 0 (slice a 0 16))) = f mode part ∧
    ∀ bytes, slice bytes 0 mode.width = slice part 0 mode.width → decompressStateless link mode bytes = a := by
  by_cases hauto : a = Ipv6Address.makeAutoconfiguredLinkLocalAddress link
  · exact ⟨.compr0, old, if_pos hauto, fun _ _ => hauto.symm⟩
  rw [if_neg hauto]
  by_cases hshort : Ipv6Address.samePrefix a unicastAddrChecker 0 14 = true
  · refine ⟨.compr16, _, if_pos hshort, fun bytes hpart => ?_⟩
    rw [HeaderCompression.width, slice_memcpy _ (length_slice _ (by decide)) (by decide)] at hpart
    rw [decompressStateless, hpart, restore16 (of_decide_eq_true hshort)]
  rw [if_neg hshort]
  by_cases hlocal : a.isLinkLocal = true
  · refine ⟨.compr64, _, if_pos hlocal, fun bytes hpart => ?_⟩
    rw [HeaderCompression.width, slice_memcpy _ (length_slice _ (by decide)) (by decide)] at hpart
    rw [decompressStateless, hpart, restore64 hlocal]
  · refine ⟨.inline, _, if_neg hlocal, fun bytes hpart => ?_⟩
    rw [HeaderCompression.width, slice_memcpy _ (length_slice _ (by decide)) (by decide)] at hpart
    rw [decompressStateless, hpart, restore128]

end Unicast

/-! ## Sources -/

/-- A source address that is restored. -/
def SrcLossless (table : ContextTable) (now : ℕ) (src : LinkAddress) (a : Ipv6Address) : Prop :=
  a = Ipv6Address.zeros ∨ ∀ c, table.findUnicastCompressionContext now a = some c → Lossless src c.2.contextPrefix a

/-- What the compression of a source address writes. -/
structure SrcWritten (h h' : SixLowPanIphc) (sac : Bool) (sam : HeaderCompression) (id : UInt8) (part : Vector UInt8 16) : Prop where
  eq : h' = { h with baseFormat := h'.baseFormat, srcdstContextId := h.srcdstContextId ||| id <<< 4, srcInlinePart := part }
  baseFormat : h'.baseFormat = h.baseFormat ||| (decide (id ≠ 0)).toNat <<< 7 ||| sac.toNat <<< 6 ||| sam.code <<< 4

section Source

variable {table : ContextTable} {now now' : ℕ} {src : LinkAddress} {a : Ipv6Address} {h : SixLowPanIphc}

theorem SrcWritten.stateless (h : SixLowPanIphc) (sam : HeaderCompression) (part : Vector UInt8 16) :
    SrcWritten h ({ h with srcInlinePart := part }.setSam sam) false sam 0 part := by
  constructor <;> simp [SixLowPanIphc.setSam, SixLowPanIphc.setBits]

theorem SrcWritten.stateful (h : SixLowPanIphc) (sam : HeaderCompression) (id : UInt8) (part : Vector UInt8 16) :
    SrcWritten h { (if id ≠ 0 then ((h.setSac true).setSrcContextId id).setCid true else h.setSac true).setSam sam with
      srcInlinePart := part } true sam id part := by
  by_cases hid : id = 0
  · subst hid
    constructor
    · simp [SixLowPanIphc.setSac, SixLowPanIphc.setSam, SixLowPanIphc.setBits]
    · simp [SixLowPanIphc.setSac, SixLowPanIphc.setSam, SixLowPanIphc.setBits]
  · constructor
    · simp [hid, SixLowPanIphc.setSac, SixLowPanIphc.setSam, SixLowPanIphc.setBits, SixLowPanIphc.setCid, SixLowPanIphc.setSrcContextId]
    · simp [hid, SixLowPanIphc.setSac, SixLowPanIphc.setSam, SixLowPanIphc.setBits, SixLowPanIphc.setCid, SixLowPanIphc.setSrcContextId]
      ac_rfl

theorem srcLossless_some (src : LinkAddress) {c : UInt8 × ContextEntry} (ha : a ≠ Ipv6Address.zeros)
    (hc : table.findUnicastCompressionContext now a = some c) :
    SrcLossless table now src a ↔ Lossless src c.2.contextPrefix a := by
  constructor
  · rintro (h | h)
    · exact absurd h ha
    · exact h c hc
  · intro h
    refine .inr fun c' hc' => ?_
    obtain rfl := Option.some_inj.mp (hc.symm.trans hc')
    exact h

/-- **The source address that arrives.** -/
theorem compressSrc_spec (now : ℕ) (hv : table.Valid) (hu : table.Unexpired now') (src : LinkAddress) (a : Ipv6Address) (h : SixLowPanIphc) :
    ∃ sac sam id part, id < 16 ∧ SrcWritten h (compressSrc table now src a h) sac sam id part ∧
      ∀ encoding : SixLowPanIphc, encoding.getSac = sac → encoding.getSam = sam → encoding.getSrcContextId = id →
        slice encoding.srcInlinePart 0 encoding.srcWidth = slice part 0 encoding.srcWidth →
        ∃ a', decompressSrc table now' src encoding = .ok a' ∧ (a' = a ↔ SrcLossless table now src a) := by
  unfold compressSrc
  by_cases ha : a = Ipv6Address.zeros
  · rw [if_pos ha]
    refine ⟨true, .inline, 0, h.srcInlinePart, by decide, ⟨?_, ?_⟩, fun e hsac hsam _ _ => ⟨Ipv6Address.zeros, ?_, ?_⟩⟩
    · simp [SixLowPanIphc.setSam, SixLowPanIphc.setSac, SixLowPanIphc.setBits]
    · simp [SixLowPanIphc.setSam, SixLowPanIphc.setSac, SixLowPanIphc.setBits, HeaderCompression.code]
    · rw [decompressSrc, hsac, if_pos rfl, if_pos hsam]
    · exact ⟨fun _ => .inl ha, fun _ => ha.symm⟩
  rw [if_neg ha]
  have hwidth : ∀ {e : SixLowPanIphc} {mode : HeaderCompression}, e.getSam = mode → e.getSac = false ∨ mode ≠ .inline →
      e.srcWidth = mode.width := by
    rintro e mode rfl hor
    unfold SixLowPanIphc.srcWidth
    cases hmode : e.getSam <;> simp_all [HeaderCompression.width]
  cases hfind : table.findUnicastCompressionContext now a with
  | some c =>
    obtain ⟨id, context⟩ := c
    have hmem : (id, context) ∈ table := List.mem_of_find?_eq_some hfind
    have hvalid : table.valid? now' id = some context := ContextTable.valid?_of_mem hv hu hmem
    obtain ⟨mode, part, hmode, hform, hspec⟩ := stateful_spec src a (fun sam part =>
        { (if id ≠ 0 then ((h.setSac true).setSrcContextId id).setCid true else h.setSac true).setSam sam with srcInlinePart := part })
      (if id ≠ 0 then ((h.setSac true).setSrcContextId id).setCid true else h.setSac true).srcInlinePart (hv.hostBitsZero _ hmem)
    refine ⟨true, mode, id, part, hv.id_lt _ hmem, (congrArg (SrcWritten h · true mode id part) hform).mpr (.stateful h mode id part),
      fun e hsac hsam hcontext hpart => ⟨decompressStateful src context.contextPrefix mode e.srcInlinePart, ?_, ?_⟩⟩
    · rw [decompressSrc, hsac, if_pos rfl, if_neg (by rwa [hsam]), hcontext, hvalid, hsam]
    · rw [srcLossless_some src ha hfind]
      exact hspec _ (hwidth hsam (.inr hmode) ▸ hpart)
  | none =>
    have hlossless : SrcLossless table now src a := .inr fun c hc => by rw [hfind] at hc; cases hc
    obtain ⟨mode, part, hform, hspec⟩ := stateless_spec src a (fun sam part => { h with srcInlinePart := part }.setSam sam) h.srcInlinePart
    refine ⟨false, mode, 0, part, by decide, (congrArg (SrcWritten h · false mode 0 part) hform).mpr (.stateless h mode part),
      fun e hsac hsam _ hpart => ⟨decompressStateless src mode e.srcInlinePart, ?_, iff_of_true ?_ hlossless⟩⟩
    · rw [decompressSrc, hsac, if_neg Bool.false_ne_true, hsam]
    · exact hspec _ (hwidth hsam (.inl hsac) ▸ hpart)

end Source

/-! ## Destinations -/

/-- A destination address that is restored by a header of the right size. -/
def DstLossless (table : ContextTable) (now : ℕ) (dst : LinkAddress) (a : Ipv6Address) : Prop :=
  if a.isMulticast then table.findMulticastCompressionContext now a = none
  else ∀ c, table.findUnicastCompressionContext now a = some c → Lossless dst c.2.contextPrefix a

structure DstWritten (h h' : SixLowPanIphc) (dac : Bool) (dam : HeaderCompression) (id : UInt8) (part : Vector UInt8 16) : Prop where
  eq : h' = { h with baseFormat := h'.baseFormat, srcdstContextId := h.srcdstContextId ||| (id &&& 0xF), dstInlinePart := part }
  baseFormat : h'.baseFormat = h.baseFormat ||| (decide (id ≠ 0)).toNat <<< 7 ||| dac.toNat <<< 2 ||| dam.code <<< 0

section Destination

variable {table : ContextTable} {now now' : ℕ} {dst : LinkAddress} {a : Ipv6Address} {h : SixLowPanIphc}

theorem DstWritten.stateless (h : SixLowPanIphc) (dam : HeaderCompression) (part : Vector UInt8 16) :
    DstWritten h ({ h with dstInlinePart := part }.setDam dam) false dam 0 part := by
  constructor <;> simp [SixLowPanIphc.setDam, SixLowPanIphc.setBits]

theorem DstWritten.stateful (h : SixLowPanIphc) (dam : HeaderCompression) (id : UInt8) (part : Vector UInt8 16) :
    DstWritten h { (if id ≠ 0 then ((h.setDac true).setDstContextId id).setCid true else h.setDac true).setDam dam with
      dstInlinePart := part } true dam id part := by
  by_cases hid : id = 0
  · subst hid
    constructor <;> simp [SixLowPanIphc.setDac, SixLowPanIphc.setDam, SixLowPanIphc.setBits]
  · constructor
    · simp [hid, SixLowPanIphc.setDac, SixLowPanIphc.setDam, SixLowPanIphc.setBits, SixLowPanIphc.setCid, SixLowPanIphc.setDstContextId]
    · simp [hid, SixLowPanIphc.setDac, SixLowPanIphc.setDam, SixLowPanIphc.setBits, SixLowPanIphc.setCid, SixLowPanIphc.setDstContextId]
      ac_rfl

theorem compressUnicastDst_spec (now : ℕ) (hv : table.Valid) (hu : table.Unexpired now') (dst : LinkAddress) (ha : a.isMulticast = false)
    (h : SixLowPanIphc) : ∃ dac dam id part, id < 16 ∧ DstWritten h (compressUnicastDst table now dst a h) dac dam id part ∧
      (dac = true → dam ≠ .inline) ∧
      ∀ encoding : SixLowPanIphc, encoding.getDac = dac → encoding.getDam = dam → encoding.getM = false →
        encoding.getDstContextId = id → slice encoding.dstInlinePart 0 encoding.dstWidth = slice part 0 encoding.dstWidth →
        ∃ a', decompressDst table now' dst encoding = .ok a' ∧ (a' = a ↔ DstLossless table now dst a) := by
  have hdst : DstLossless table now dst a ↔ ∀ c, table.findUnicastCompressionContext now a = some c →
      Lossless dst c.2.contextPrefix a := by
    rw [DstLossless, ha, if_neg Bool.false_ne_true]
  unfold compressUnicastDst
  have hwidth : ∀ {e : SixLowPanIphc} {mode : HeaderCompression}, e.getDam = mode → e.getM = false → e.dstWidth = mode.width := by
    rintro e mode rfl hm
    rw [SixLowPanIphc.dstWidth, hm, if_neg Bool.false_ne_true]
    rfl
  cases hfind : table.findUnicastCompressionContext now a with
  | some c =>
    obtain ⟨id, context⟩ := c
    have hmem : (id, context) ∈ table := List.mem_of_find?_eq_some hfind
    have hvalid : table.valid? now' id = some context := ContextTable.valid?_of_mem hv hu hmem
    obtain ⟨mode, part, hmode, hform, hspec⟩ := stateful_spec dst a (fun dam part =>
        { (if id ≠ 0 then ((h.setDac true).setDstContextId id).setCid true else h.setDac true).setDam dam with dstInlinePart := part })
      (if id ≠ 0 then ((h.setDac true).setDstContextId id).setCid true else h.setDac true).dstInlinePart (hv.hostBitsZero _ hmem)
    refine ⟨true, mode, id, part, hv.id_lt _ hmem, (congrArg (DstWritten h · true mode id part) hform).mpr (.stateful h mode id part),
      fun _ => hmode, fun e hdac hdam hm hcontext hpart =>
        ⟨decompressStateful dst context.contextPrefix mode e.dstInlinePart, ?_, ?_⟩⟩
    · have hcode : ¬ (e.getDam = .inline ∧ e.getM = false ∨ e.getDam ≠ .inline ∧ e.getM) := by
        rw [hdam, hm]
        simp [hmode]
      rw [decompressDst, hdac, if_pos rfl, if_neg hcode, hcontext, hvalid]
      dsimp only
      rw [if_pos hm, hdam]
    · have hlossless : DstLossless table now dst a ↔ Lossless dst context.contextPrefix a := by
        rw [hdst, hfind]
        simp
      rw [hlossless]
      exact hspec _ (hwidth hdam hm ▸ hpart)
  | none =>
    have hlossless : DstLossless table now dst a := by
      rw [hdst, hfind]
      simp
    obtain ⟨mode, part, hform, hspec⟩ := stateless_spec dst a (fun dam part => { h with dstInlinePart := part }.setDam dam) h.dstInlinePart
    refine ⟨false, mode, 0, part, by decide, (congrArg (DstWritten h · false mode 0 part) hform).mpr (.stateless h mode part),
      fun hc => absurd hc Bool.false_ne_true, fun e hdac hdam hm _ hpart =>
        ⟨decompressStateless dst mode e.dstInlinePart, ?_, iff_of_true ?_ hlossless⟩⟩
    · rw [decompressDst, hdac, if_neg Bool.false_ne_true, if_pos hm, hdam]
    · exact hspec _ (hwidth hdam hm ▸ hpart)

theorem compressMulticastDst_spec (now : ℕ) (hv : table.Valid) (hu : table.Unexpired now') (dst : LinkAddress) (ha : a.isMulticast = true)
    (h : SixLowPanIphc) : ∃ dac dam id part, id < 16 ∧ DstWritten h (compressMulticastDst table now a h) dac dam id part ∧
      (dac = false ↔ DstLossless table now dst a) ∧
      ∀ encoding : SixLowPanIphc, encoding.getDac = dac → encoding.getDam = dam → encoding.getM = true →
        encoding.getDstContextId = id → slice encoding.dstInlinePart 0 encoding.dstWidth = slice part 0 encoding.dstWidth →
        decompressDst table now' dst encoding = .ok a := by
  have hff : a[0] = 0xff := of_decide_eq_true ha
  have hdst : DstLossless table now dst a ↔ table.findMulticastCompressionContext now a = none := by
    rw [DstLossless, ha, if_pos rfl]
  unfold compressMulticastDst
  cases hfind : table.findMulticastCompressionContext now a with
  | some c =>
    obtain ⟨id, context⟩ := c
    have hmem : (id, context) ∈ table := List.mem_of_find?_eq_some hfind
    have hid : id < 16 := hv.id_lt _ hmem
    have hvalid : table.valid? now' id = some context := ContextTable.valid?_of_mem hv hu hmem
    have hfound := List.find?_some hfind
    simp only [Bool.and_eq_true, decide_eq_true_eq] at hfound
    obtain ⟨⟨-, hlength⟩, hbytes⟩ := hfound
    refine ⟨true, .inline, id, _, hid, .stateful h .inline id _, ?_, fun e hdac hdam hm hcontext hpart => ?_⟩
    · rw [hdst, hfind]
      simp
    · have hcode : ¬ (e.getDam = .inline ∧ e.getM = false ∨ e.getDam ≠ .inline ∧ e.getM) := by simp [hdam, hm]
      have hm' : ¬ e.getM = false := by simp [hm]
      have hwidth : e.dstWidth = 6 + 10 := by rw [SixLowPanIphc.dstWidth, hdam, hm]; rfl
      have hlen : (slice a 1 2 ++ slice a 12 4).length = 6 := by
        rw [List.length_append, length_slice _ (by decide), length_slice _ (by decide)]
      -- of the sixteen bytes that are read, the first six are the part
      rw [hwidth, slice_add, slice_add] at hpart
      have hsix := List.append_inj_left hpart (by rw [length_slice _ (by decide), length_slice _ (by decide)])
      have hpart' : slice e.dstInlinePart 0 6 = slice a 1 2 ++ slice a 12 4 :=
        hsix.trans (slice_memcpy _ hlen (by decide : 6 ≤ 16))
      have hsplit := (slice_add e.dstInlinePart 0 2 4).symm.trans hpart'
      have hfirst := List.append_inj_left hsplit (by rw [length_slice _ (by decide), length_slice _ (by decide)])
      have hsecond := List.append_inj_right hsplit (by rw [length_slice _ (by decide), length_slice _ (by decide)])
      rw [decompressDst, hdac, if_pos rfl, if_neg hcode, hcontext, hvalid]
      dsimp only
      rw [if_neg hm', decompressStatefulGroup, hfirst, hsecond, ← hlength, UInt8.ofNat_toNat, ← hbytes]
      exact congrArg Except.ok (restoreStatefulGroup ha rfl)
  | none =>
    have hlossless : DstLossless table now dst a := hdst.mpr hfind
    have hdecompress : ∀ {e : SixLowPanIphc} {mode : HeaderCompression}, e.getDac = false → e.getDam = mode → e.getM = true →
        decompressDst table now' dst e = .ok (decompressGroup mode e.dstInlinePart) := by
      intro e mode hdac hdam hm
      have hm' : ¬ e.getM = false := by simp [hm]
      rw [decompressDst, hdac, if_neg Bool.false_ne_true, if_neg hm', hdam]
    dsimp only
    by_cases h8 : Ipv6Address.samePrefix a multicastAddrChecker 0 15 = true
    · rw [if_pos h8]
      refine ⟨false, .compr0, 0, _, by decide, .stateless h .compr0 _, iff_of_true rfl hlossless, fun e hdac hdam hm _ hpart => ?_⟩
      have hwidth : e.dstWidth = 1 := by rw [SixLowPanIphc.dstWidth, hdam, hm]; rfl
      rw [hwidth, slice_memcpy _ (length_slice _ (by decide)) (by decide)] at hpart
      rw [hdecompress hdac hdam hm, decompressGroup, hpart, restoreGroup8 (of_decide_eq_true h8)]
    rw [if_neg h8]
    by_cases h32 : a[0]? = multicastAddrChecker[0]? ∧ Ipv6Address.samePrefix a multicastAddrChecker 2 11 = true
    · rw [if_pos h32]
      refine ⟨false, .compr16, 0, _, by decide, .stateless h .compr16 _, iff_of_true rfl hlossless, fun e hdac hdam hm _ hpart => ?_⟩
      have hwidth : e.dstWidth = 1 + 3 := by rw [SixLowPanIphc.dstWidth, hdam, hm]; rfl
      have hlen : (slice a 1 1 ++ slice a 13 3).length = 1 + 3 := by
        rw [List.length_append, length_slice _ (by decide), length_slice _ (by decide)]
      rw [hwidth, slice_memcpy _ hlen (by decide), slice_add] at hpart
      have hfirst := List.append_inj_left hpart (by rw [length_slice _ (by decide), length_slice _ (by decide)])
      have hsecond := List.append_inj_right hpart (by rw [length_slice _ (by decide), length_slice _ (by decide)])
      rw [hdecompress hdac hdam hm, decompressGroup, hfirst, hsecond, restoreGroup32 ha (of_decide_eq_true h32.2)]
    rw [if_neg h32]
    by_cases h48 : a[0]? = multicastAddrChecker[0]? ∧ Ipv6Address.samePrefix a multicastAddrChecker 2 9 = true
    · rw [if_pos h48]
      refine ⟨false, .compr64, 0, _, by decide, .stateless h .compr64 _, iff_of_true rfl hlossless, fun e hdac hdam hm _ hpart => ?_⟩
      have hwidth : e.dstWidth = 1 + 5 := by rw [SixLowPanIphc.dstWidth, hdam, hm]; rfl
      have hlen : (slice a 1 1 ++ slice a 11 5).length = 1 + 5 := by
        rw [List.length_append, length_slice _ (by decide), length_slice _ (by decide)]
      rw [hwidth, slice_memcpy _ hlen (by decide), slice_add] at hpart
      have hfirst := List.append_inj_left hpart (by rw [length_slice _ (by decide), length_slice _ (by decide)])
      have hsecond := List.append_inj_right hpart (by rw [length_slice _ (by decide), length_slice _ (by decide)])
      rw [hdecompress hdac hdam hm, decompressGroup, hfirst, hsecond, restoreGroup48 ha (of_decide_eq_true h48.2)]
    · rw [if_neg h48]
      refine ⟨false, .inline, 0, _, by decide, .stateless h .inline _, iff_of_true rfl hlossless, fun e hdac hdam hm _ hpart => ?_⟩
      have hwidth : e.dstWidth = 16 := by rw [SixLowPanIphc.dstWidth, hdam, hm]; rfl
      rw [hwidth, slice_memcpy _ (length_slice _ (by decide)) (by decide)] at hpart
      rw [hdecompress hdac hdam hm, decompressGroup, hpart, restore128]

end Destination

/-! ## Headers -/

section Header

variable {table : ContextTable} {now now' : ℕ} {src dst : LinkAddress} {ip : Ipv6Header} {h : SixLowPanIphc}

theorem compressHlim_spec (hopLimit : UInt8) (h : SixLowPanIphc) : ∃ (hlim : Hlim) (inline : UInt8),
    compressHlim hopLimit h = { h with baseFormat := h.baseFormat ||| hlim.code <<< 8, hopLimit := inline } ∧
      hlim.value inline = hopLimit := by
  unfold compressHlim
  by_cases h1 : hopLimit = 1
  · rw [if_pos h1]
    exact ⟨.compr1, h.hopLimit, rfl, h1.symm⟩
  rw [if_neg h1]
  by_cases h64 : hopLimit = 0x40
  · rw [if_pos h64]
    exact ⟨.compr64, h.hopLimit, rfl, h64.symm⟩
  rw [if_neg h64]
  by_cases h255 : hopLimit = 0xFF
  · rw [if_pos h255]
    exact ⟨.compr255, h.hopLimit, rfl, h255.symm⟩
  · rw [if_neg h255]
    exact ⟨.inline, hopLimit, rfl, rfl⟩

theorem context_ids : ∀ i j : Fin 16, ((0 : UInt8) ||| UInt8.ofNat i <<< 4 ||| (UInt8.ofNat j &&& 0xF)) >>> 4 = UInt8.ofNat i ∧
    ((0 : UInt8) ||| UInt8.ofNat i <<< 4 ||| (UInt8.ofNat j &&& 0xF)) &&& 0xF = UInt8.ofNat j := by
  decide

/-- Both identifiers are in one byte, which is there if one of them is not zero. -/
theorem contextIds_eq {i j : UInt8} (hi : i < 16) (hj : j < 16) (cid : Bool) (hcid : cid = (decide (i ≠ 0) || decide (j ≠ 0))) :
    (if cid then (0 : UInt8) ||| i <<< 4 ||| (j &&& 0xF) else 0) >>> 4 = i ∧
      (if cid then (0 : UInt8) ||| i <<< 4 ||| (j &&& 0xF) else 0) &&& 0xF = j := by
  cases cid with
  | true =>
    have := context_ids ⟨i.toNat, hi⟩ ⟨j.toNat, hj⟩
    simpa using this
  | false =>
    have hzero : ¬ (decide (i ≠ 0) || decide (j ≠ 0)) = true := by rw [← hcid]; decide
    simp only [Bool.or_eq_true, decide_eq_true_eq, not_or, not_not] at hzero
    obtain ⟨rfl, rfl⟩ := hzero
    decide

structure AddressesWritten (table : ContextTable) (now now' : ℕ) (src dst : LinkAddress) (ip : Ipv6Header) (h g : SixLowPanIphc)
    (k : Modes) : Prop where
  baseFormat : g.baseFormat = k.baseFormat
  ecn : g.ecn = h.ecn
  dscp : g.dscp = h.dscp
  flowLabel : g.flowLabel = h.flowLabel
  nextHeader : g.nextHeader = h.nextHeader
  hopLimit : k.hlim.value g.hopLimit = ip.hopLimit
  size : g.StatefulMismatch ↔ ip.destinationAddress.isMulticast = true ∧ ¬ DstLossless table now dst ip.destinationAddress
  addresses : ∀ g', g.Received g' → ∃ a b, decompressAddresses table now' src dst g' = .ok (a, b) ∧
    (a = ip.sourceAddress ↔ SrcLossless table now src ip.sourceAddress) ∧
    (b = ip.destinationAddress ↔ ip.destinationAddress.isMulticast = true ∨ DstLossless table now dst ip.destinationAddress)

theorem compressAddresses_spec (now : ℕ) (hv : table.Valid) (hu : table.Unexpired now') (src dst : LinkAddress) (ip : Ipv6Header)
    {tf : TrafficClassFlowLabel} {nh : Bool} (hb : h.baseFormat = 0x6000 ||| tf.code <<< 11 ||| nh.toNat <<< 10)
    (hc : h.srcdstContextId = 0) :
    ∃ k : Modes, AddressesWritten table now now' src dst ip h (compressAddresses table now src dst ip h) k ∧ k.tf = tf ∧ k.nh = nh := by
  obtain ⟨hlim, inline, hhlim, hvalue⟩ := compressHlim_spec ip.hopLimit h
  -- the header before the addresses
  obtain ⟨h2, hh2⟩ : ∃ h2, h2 = (((compressHlim ip.hopLimit h).setCid false).setSac false).setDac false := ⟨_, rfl⟩
  have hb2 : h2.baseFormat = 0x6000 ||| tf.code <<< 11 ||| nh.toNat <<< 10 ||| hlim.code <<< 8 := by
    rw [hh2, hhlim]
    simp [SixLowPanIphc.setCid, SixLowPanIphc.setSac, SixLowPanIphc.setDac, SixLowPanIphc.setBits, hb]
  have heq2 : h2 = { h with baseFormat := h2.baseFormat, hopLimit := inline } := by
    rw [hh2, hhlim]
    rfl
  obtain ⟨sac, sam, i, srcPart, hi, hsrc, hsrcSpec⟩ := compressSrc_spec now hv hu src ip.sourceAddress h2
  obtain ⟨h3, hh3⟩ : ∃ h3, h3 = compressSrc table now src ip.sourceAddress h2 := ⟨_, rfl⟩
  rw [← hh3] at hsrc
  obtain ⟨h4, hh4⟩ : ∃ h4, h4 = h3.setM ip.destinationAddress.isMulticast := ⟨_, rfl⟩
  have hb4 : h4.baseFormat = Modes.baseFormat ⟨tf, nh, hlim, decide (i ≠ 0), sac, sam, ip.destinationAddress.isMulticast, false,
      .inline⟩ := by
    rw [hh4, SixLowPanIphc.setM, SixLowPanIphc.setBits, hsrc.baseFormat, hb2]
    simp [Modes.baseFormat, HeaderCompression.code]
  have hm4 : h4.getM = ip.destinationAddress.isMulticast := (Modes.Of.of_baseFormat hb4).m
  have hdst : ∃ dac dam j part, j < 16 ∧ DstWritten h4 (compressDst table now dst ip.destinationAddress h4) dac dam j part ∧
      (dac = true ∧ (ip.destinationAddress.isMulticast = true ∨ dam = .inline) ↔
        ip.destinationAddress.isMulticast = true ∧ ¬ DstLossless table now dst ip.destinationAddress) ∧
      ∀ e : SixLowPanIphc, e.getDac = dac → e.getDam = dam → e.getM = ip.destinationAddress.isMulticast → e.getDstContextId = j →
        slice e.dstInlinePart 0 e.dstWidth = slice part 0 e.dstWidth →
        ∃ b, decompressDst table now' dst e = .ok b ∧
          (b = ip.destinationAddress ↔ ip.destinationAddress.isMulticast = true ∨ DstLossless table now dst ip.destinationAddress) := by
    unfold compressDst
    rw [hm4]
    cases hmc : ip.destinationAddress.isMulticast with
    | false =>
      obtain ⟨dac, dam, j, part, hj, hwritten, hne, hspec⟩ := compressUnicastDst_spec now hv hu dst hmc h4
      refine ⟨dac, dam, j, part, hj, hwritten, ?_, fun e hdac hdam hm hid hpart => ?_⟩
      · simp only [Bool.false_eq_true, false_or, false_and, iff_false, not_and]
        exact hne
      · simpa using hspec e hdac hdam hm hid hpart
    | true =>
      obtain ⟨dac, dam, j, part, hj, hwritten, hlossless, hspec⟩ := compressMulticastDst_spec now hv hu dst hmc h4
      refine ⟨dac, dam, j, part, hj, hwritten, ?_, fun e hdac hdam hm hid hpart => ⟨_, hspec e hdac hdam hm hid hpart, by simp⟩⟩
      rw [← hlossless]
      simp
  obtain ⟨dac, dam, j, dstPart, hj, hdst, hsize, hdstSpec⟩ := hdst
  obtain ⟨g, hg⟩ : ∃ g, g = compressDst table now dst ip.destinationAddress h4 := ⟨_, rfl⟩
  have hgoal : compressAddresses table now src dst ip h = g := by
    rw [hg, hh4, hh3, hh2]
    rfl
  rw [← hg] at hdst
  rw [hgoal]
  have hbg : g.baseFormat = Modes.baseFormat ⟨tf, nh, hlim, decide (i ≠ 0) || decide (j ≠ 0), sac, sam,
      ip.destinationAddress.isMulticast, dac, dam⟩ := by
    have hor : (decide (i ≠ 0) || decide (j ≠ 0)).toNat <<< 7 = (decide (i ≠ 0)).toNat <<< 7 ||| (decide (j ≠ 0)).toNat <<< 7 := by
      cases decide (i ≠ 0) <;> cases decide (j ≠ 0) <;> rfl
    rw [hdst.baseFormat, hb4]
    simp only [Modes.baseFormat, hor, HeaderCompression.code, Bool.toNat_false, Nat.zero_shiftLeft, Nat.or_zero]
    ac_rfl
  have hof := Modes.Of.of_baseFormat hbg
  have hfields : g = { h with
      baseFormat := g.baseFormat
      hopLimit := inline
      srcdstContextId := g.srcdstContextId
      srcInlinePart := srcPart
      dstInlinePart := dstPart } := by
    rw [hdst.eq, hh4, SixLowPanIphc.setM, SixLowPanIphc.setBits, hsrc.eq, heq2]
  refine ⟨_, ⟨hbg, by rw [hfields], by rw [hfields], by rw [hfields], by rw [hfields], ?_, ?_, fun g' hr => ?_⟩, rfl, rfl⟩
  · rw [hfields]
    exact hvalue
  · rw [SixLowPanIphc.StatefulMismatch, hof.dac, hof.m, hof.dam]
    exact hsize
  · have hid : g.srcdstContextId = (0 : UInt8) ||| i <<< 4 ||| (j &&& 0xF) := by
      rw [hdst.eq, hh4, SixLowPanIphc.setM, SixLowPanIphc.setBits, hsrc.eq, heq2, hc]
    obtain ⟨hids, hidd⟩ := contextIds_eq hi hj g.getCid hof.cid
    have hget := fun {α : Type} (f : SixLowPanIphc → α) (hf : ∀ e : SixLowPanIphc, f e = f { g with baseFormat := e.baseFormat }) =>
      SixLowPanIphc.eq_of_baseFormat (h := g) f hf hr.baseFormat
    have hof' : Modes.Of _ g' := Modes.Of.of_baseFormat (hr.baseFormat.trans hbg)
    have hsrcId : g'.getSrcContextId = i := by rw [SixLowPanIphc.getSrcContextId, hr.srcdstContextId, hid, hids]
    have hdstId : g'.getDstContextId = j := by rw [SixLowPanIphc.getDstContextId, hr.srcdstContextId, hid, hidd]
    have hsrcPart : slice g'.srcInlinePart 0 g'.srcWidth = slice srcPart 0 g'.srcWidth := by
      have hpart : g.srcInlinePart = srcPart := by rw [hfields]
      rw [hget SixLowPanIphc.srcWidth fun _ => rfl, hr.src, hpart]
    have hdstPart : slice g'.dstInlinePart 0 g'.dstWidth = slice dstPart 0 g'.dstWidth := by
      have hpart : g.dstInlinePart = dstPart := by rw [hfields]
      rw [hget SixLowPanIphc.dstWidth fun _ => rfl, hr.dst, hpart]
    obtain ⟨a, ha, haiff⟩ := hsrcSpec g' hof'.sac hof'.sam hsrcId hsrcPart
    obtain ⟨b, hb', hbiff⟩ := hdstSpec g' hof'.dac hof'.dam hof'.m hdstId hdstPart
    refine ⟨a, b, ?_, haiff, hbiff⟩
    rw [decompressAddresses, ha]
    show (decompressDst table now' dst g').map _ = _
    rw [hb']
    rfl

/-! ## The traffic class and the flow label -/

theorem trafficClass_fin : ∀ n : Fin 256, (UInt8.ofNat n &&& 0xC0) >>> 6 < 4 ∧ UInt8.ofNat n &&& 0x3F < 64 ∧
    (UInt8.ofNat n &&& 0xC0) >>> 6 <<< 6 ||| (UInt8.ofNat n &&& 0x3F) = UInt8.ofNat n := by
  decide +kernel

theorem trafficClass_parts (tc : UInt8) : (tc &&& 0xC0) >>> 6 < 4 ∧ tc &&& 0x3F < 64 ∧
    (tc &&& 0xC0) >>> 6 <<< 6 ||| (tc &&& 0x3F) = tc := by
  have := trafficClass_fin ⟨tc.toNat, tc.toNat_lt⟩
  simpa using this

theorem compressTf_asserts (hfl : ip.flowLabel = Ipv6Header.versionAndClass ip.trafficClass) (h : SixLowPanIphc) :
    compressTf true ip h = none := by
  unfold Ipv6Header.versionAndClass at hfl
  have hne : ip.flowLabel ≠ 0 := by omega
  have hbig : ¬ ip.flowLabel < 0x100000 := by omega
  unfold compressTf
  rw [if_neg fun hand => hne hand.1]
  by_cases htc : ip.trafficClass = 0
  · rw [if_neg fun hand => hand.2 htc, if_neg fun hand => hne hand.1]
    simp [SixLowPanIphc.setEcn, SixLowPanIphc.setFlowLabel, hbig]
  · rw [if_pos ⟨hne, htc⟩]
    simp [SixLowPanIphc.setEcn, SixLowPanIphc.setDscp, SixLowPanIphc.setFlowLabel, hbig]

structure TfWritten (ip : Ipv6Header) (h : SixLowPanIphc) (tf : TrafficClassFlowLabel) : Prop where
  baseFormat : h.baseFormat = 0x6000 ||| tf.code <<< 11
  srcdstContextId : h.srcdstContextId = 0
  ecn : tf ≠ .elided → h.ecn < 4
  dscp : tf = .full ∨ tf = .flElided → h.dscp < 64
  flowLabel : tf = .dscpElided → h.flowLabel % 2 ^ 24 < 2 ^ 22
  decompress : ∀ g : SixLowPanIphc, g.getTf = tf → (tf ≠ .elided → g.ecn = h.ecn) → (tf = .full ∨ tf = .flElided → g.dscp = h.dscp) →
    (tf = .full ∨ tf = .dscpElided → g.flowLabel = h.flowLabel % 2 ^ 24) → decompressTf g = (ip.trafficClass, 0)

theorem compressTf_spec (hfl : ip.flowLabel = Ipv6Header.versionAndClass ip.trafficClass) (raw : SixLowPanIphc) :
    ∃ h tf, compressTf false ip raw.init = some h ∧ TfWritten ip h tf := by
  unfold Ipv6Header.versionAndClass at hfl
  have hne : ip.flowLabel ≠ 0 := by omega
  obtain ⟨hecn, hdscp, hclass⟩ := trafficClass_parts ip.trafficClass
  unfold compressTf
  rw [if_neg fun hand => hne hand.1]
  by_cases htc : ip.trafficClass = 0
  · rw [if_neg fun hand => hand.2 htc, if_neg fun hand => hne hand.1]
    have hzero : ip.trafficClass.toNat = 0 := by rw [htc]; rfl
    refine ⟨_, .dscpElided, rfl, rfl, rfl, fun _ => hecn, by simp, fun _ => ?_, fun g htf hgecn _ hgflow => ?_⟩
    · show ip.flowLabel % 2 ^ 24 < 2 ^ 22
      omega
    · have hg1 : g.ecn = 0 := by
        rw [hgecn (by decide)]
        show (ip.trafficClass &&& 0xC0) >>> 6 = 0
        rw [htc]
        rfl
      have hg2 : g.flowLabel = 0 := by
        rw [hgflow (.inr rfl)]
        show ip.flowLabel % 2 ^ 24 = 0
        omega
      rw [decompressTf, htf, hg1, hg2, htc]
      rfl
  · rw [if_pos ⟨hne, htc⟩]
    refine ⟨_, .full, rfl, rfl, rfl, fun _ => hecn, fun _ => hdscp, by simp, fun g htf hgecn hgdscp hgflow => ?_⟩
    have hg1 : g.ecn = (ip.trafficClass &&& 0xC0) >>> 6 := hgecn (by decide)
    have hg2 : g.dscp = ip.trafficClass &&& 0x3F := hgdscp (.inl rfl)
    have hg3 : g.flowLabel = ip.flowLabel % 2 ^ 24 := hgflow (.inl rfl)
    have hflow : ip.flowLabel % 2 ^ 24 &&& 0xfff = 0 := by
      rw [Nat.and_two_pow_sub_one_eq_mod _ 12]
      omega
    rw [decompressTf, htf, hg1, hg2, hg3]
    dsimp only
    rw [hclass, hflow]

/-! ## Packets -/

structure HeaderReceived (table : ContextTable) (now now' : ℕ) (src dst : LinkAddress) (ip : Ipv6Header) (g g' : SixLowPanIphc) :
    Prop where
  tf : decompressTf g' = (ip.trafficClass, 0)
  nextHeader : canCompressLowPanNhc ip.nextHeader = false → g'.getNh = false ∧ g'.nextHeader = ip.nextHeader
  hopLimit : g'.hopLimit = ip.hopLimit
  size : g.StatefulMismatch ↔ ip.destinationAddress.isMulticast = true ∧ ¬ DstLossless table now dst ip.destinationAddress
  width : g'.getSerializedSize = g.getSerializedSize
  addresses : ∃ a b, decompressAddresses table now' src dst g' = .ok (a, b) ∧
    (a = ip.sourceAddress ↔ SrcLossless table now src ip.sourceAddress) ∧
    (b = ip.destinationAddress ↔ ip.destinationAddress.isMulticast = true ∨ DstLossless table now dst ip.destinationAddress)

theorem compressHeader_spec (now : ℕ) (hv : table.Valid) (hu : table.Unexpired now') (nhc : Nhc) (raw : SixLowPanIphc) (src dst : LinkAddress)
    (hfl : ip.flowLabel = Ipv6Header.versionAndClass ip.trafficClass) (packet : List UInt8) :
    ∃ g rest, compressHeader false nhc table now raw src dst ip packet = some (g, rest) ∧
      (canCompressLowPanNhc ip.nextHeader = false → rest = packet) ∧
      ∀ (raw' : SixLowPanIphc) rest', ∃ g', raw'.deserialize (g.serialize ++ rest') = some (g', rest') ∧
        HeaderReceived table now now' src dst ip g g' := by
  obtain ⟨h, tf, hh, htf⟩ := compressTf_spec hfl raw
  obtain ⟨nh, hnh⟩ : ∃ nh, (compressNh nhc ip.nextHeader h packet).1 = { h with
      baseFormat := h.baseFormat ||| Bool.toNat nh <<< 10
      nextHeader := (compressNh nhc ip.nextHeader h packet).1.nextHeader } ∧
      (canCompressLowPanNhc ip.nextHeader = false → nh = false ∧
        (compressNh nhc ip.nextHeader h packet).1.nextHeader = ip.nextHeader ∧ (compressNh nhc ip.nextHeader h packet).2 = packet) := by
    unfold compressNh
    cases canCompressLowPanNhc ip.nextHeader with
    | false => exact ⟨false, rfl, fun _ => ⟨rfl, rfl, rfl⟩⟩
    | true =>
      cases nhc.compress ip.nextHeader packet with
      | none => exact ⟨false, rfl, by simp⟩
      | some packet' => exact ⟨true, rfl, by simp⟩
  obtain ⟨hnh, hnext⟩ := hnh
  obtain ⟨h1, hh1⟩ : ∃ h1, h1 = (compressNh nhc ip.nextHeader h packet).1 := ⟨_, rfl⟩
  rw [← hh1] at hnh hnext
  have hb : h1.baseFormat = 0x6000 ||| tf.code <<< 11 ||| nh.toNat <<< 10 := by rw [hnh, htf.baseFormat]
  have hc : h1.srcdstContextId = 0 := by rw [hnh, htf.srcdstContextId]
  obtain ⟨k, hk, rfl, rfl⟩ := compressAddresses_spec now hv hu src dst ip hb hc
  refine ⟨compressAddresses table now src dst ip h1, _, ?_, fun hcan => (hnext hcan).2.2, fun raw' rest' => ?_⟩
  · rw [compressHeader, hh, Option.map_some, hh1]
  have hof := Modes.Of.of_baseFormat hk.baseFormat
  have hecn : h1.ecn = h.ecn := by rw [hnh]
  have hdscp : h1.dscp = h.dscp := by rw [hnh]
  have hflow : h1.flowLabel = h.flowLabel := by rw [hnh]
  obtain ⟨g, hg⟩ : ∃ g, g = compressAddresses table now src dst ip h1 := ⟨_, rfl⟩
  rw [← hg] at hk hof ⊢
  have hfits : g.Fits := by
    refine ⟨hk.baseFormat ▸ k.baseFormat_lt, fun hne => ?_, fun hne => ?_, fun heq => ?_⟩
    · rw [hk.ecn, hecn]
      exact htf.ecn (hof.tf ▸ hne)
    · rw [hk.dscp, hdscp]
      exact htf.dscp (hof.tf ▸ hne)
    · rw [hk.flowLabel, hflow]
      exact htf.flowLabel (hof.tf ▸ heq)
  obtain ⟨g', hg', hr⟩ := SixLowPanIphc.deserialize_serialize hfits raw' rest'
  have hof' : k.Of g' := Modes.Of.of_baseFormat (hr.baseFormat.trans hk.baseFormat)
  refine ⟨g', hg', ⟨?_, fun hcan => ?_, ?_, hk.size, ?_, hk.addresses g' hr⟩⟩
  · refine htf.decompress g' hof'.tf (fun hne => ?_) (fun hor => ?_) fun hor => ?_
    · rw [hr.ecn (hof.tf.symm ▸ hne), hk.ecn, hecn]
    · rw [hr.dscp (hof.tf.symm ▸ hor), hk.dscp, hdscp]
    · rw [hr.flowLabel (hof.tf.symm ▸ hor), hk.flowLabel, hflow]
  · obtain ⟨hfalse, hsame, -⟩ := hnext hcan
    refine ⟨hof'.nh.trans hfalse, ?_⟩
    rw [hr.nextHeader (hof.nh.trans hfalse), hk.nextHeader, hsame]
  · rw [hr.hopLimit, hof.hlim, hk.hopLimit]
  · exact SixLowPanIphc.eq_of_baseFormat SixLowPanIphc.getSerializedSize (fun _ => rfl) hr.baseFormat

end Header

section Packets

variable {table : ContextTable} {now now' : ℕ} {src dst : LinkAddress} {ip : Ipv6Header} {nhc : Nhc} {raw raw' : SixLowPanIphc}
  {asserts : Bool} {n : ℕ}

/-- The packet of the sender arrives. -/
def RoundTrips (asserts : Bool) (nhc : Nhc) (table : ContextTable) (now now' : ℕ) (raw raw' : SixLowPanIphc) (src dst : LinkAddress)
    (packet : List UInt8) : Prop :=
  ∃ q, compressLowPanIphc asserts nhc table now raw src dst packet = some q ∧
    decompressLowPanIphc nhc table now' raw' src dst q = .ok packet

/-- A header is written with as many bytes as its size says, and both addresses are read of it. -/
def RestoresAddresses (asserts : Bool) (nhc : Nhc) (table : ContextTable) (now now' : ℕ) (raw raw' : SixLowPanIphc)
    (src dst : LinkAddress) (packet : List UInt8) : Prop :=
  ∃ ip rest h rest' q encoding, Ipv6Header.deserialize packet = some (ip, rest) ∧
    compressHeader asserts nhc table now raw src dst ip rest = some (h, rest') ∧ h.serialize.length = h.getSerializedSize ∧
    h.addHeader rest' = some q ∧ (raw'.removeHeader q).map Prod.fst = some encoding ∧
    decompressAddresses table now' src dst encoding = .ok (ip.sourceAddress, ip.destinationAddress)

theorem compressHeader_asserts (hfl : ip.flowLabel = Ipv6Header.versionAndClass ip.trafficClass) (packet : List UInt8) :
    compressHeader true nhc table now raw src dst ip packet = none := by
  unfold compressHeader
  rw [compressTf_asserts hfl]
  rfl

theorem addHeader_eq {g : SixLowPanIphc} (hsize : ¬ g.StatefulMismatch) (rest : List UInt8) :
    g.serialize.length = g.getSerializedSize ∧ g.addHeader rest = some (g.serialize ++ rest) := by
  have hlen : g.serialize.length = g.getSerializedSize :=
    (SixLowPanIphc.length_serialize g).trans ((SixLowPanIphc.getSerializedSize_eq_iff g).mpr hsize)
  refine ⟨hlen, ?_⟩
  rw [SixLowPanIphc.addHeader, hlen, if_pos (Nat.le_add_right _ _), Nat.sub_self, List.drop_zero]

theorem removeHeader_eq {g g' : SixLowPanIphc} {rest : List UInt8} (hlen : g.serialize.length = g.getSerializedSize)
    (hread : raw'.deserialize (g.serialize ++ rest) = some (g', rest)) (hwidth : g'.getSerializedSize = g.getSerializedSize) :
    raw'.removeHeader (g.serialize ++ rest) = some (g', rest) := by
  rw [SixLowPanIphc.removeHeader, hread, Option.map_some, hwidth, ← hlen, List.drop_left]

theorem dstLossless_nil (dst : LinkAddress) (a : Ipv6Address) : DstLossless [] now dst a := by
  unfold DstLossless
  split
  · rfl
  · intro c hc
    cases hc

theorem valid_nil : ContextTable.Valid [] := ⟨List.nodup_nil, by simp, by simp⟩

/-- Without contexts, everything arrives but the flow label. -/
theorem decompress_nil (nhc : Nhc) (now now' : ℕ) (raw raw' : SixLowPanIphc) (src dst : LinkAddress)
    {packet payload : List UInt8} (hread : Ipv6Header.deserialize packet = some (ip, payload))
    (hfl : ip.flowLabel = Ipv6Header.versionAndClass ip.trafficClass) (hnext : canCompressLowPanNhc ip.nextHeader = false)
    (hlen : payload.length < 2 ^ 16) :
    ∃ q, compressLowPanIphc false nhc [] now raw src dst packet = some q ∧ decompressLowPanIphc nhc [] now' raw' src dst q =
      .ok (Ipv6Header.serialize
        { trafficClass := ip.trafficClass
          flowLabel := 0
          payloadLength := payload.length
          nextHeader := ip.nextHeader
          hopLimit := ip.hopLimit
          sourceAddress := ip.sourceAddress
          destinationAddress := ip.destinationAddress } ++ payload) := by
  have hunexpired : ContextTable.Unexpired [] now' := by simp [ContextTable.Unexpired]
  obtain ⟨g, rest, hg, hrest, hspec⟩ := compressHeader_spec now valid_nil hunexpired nhc raw src dst hfl payload
  obtain rfl := hrest hnext
  obtain ⟨g', hg', hr⟩ := hspec raw' rest
  have hsize : ¬ g.StatefulMismatch := fun h => (hr.size.mp h).2 (dstLossless_nil dst _)
  obtain ⟨hwidth, hadd⟩ := addHeader_eq hsize rest
  obtain ⟨a, b, haddresses, ha, hb⟩ := hr.addresses
  have ha' : a = ip.sourceAddress := ha.mpr (.inr fun c hc => by cases hc)
  have hb' : b = ip.destinationAddress := hb.mpr (.inr (dstLossless_nil dst _))
  obtain ⟨hnh, hnext'⟩ := hr.nextHeader hnext
  refine ⟨g.serialize ++ rest, ?_, ?_⟩
  · rw [compressLowPanIphc, hread]
    dsimp only
    rw [hg, Option.bind_some, hadd]
  · unfold decompressLowPanIphc
    rw [removeHeader_eq hwidth hg' hr.width]
    dsimp only
    rw [haddresses, ha', hb']
    show Except.map _ (decompressNh nhc g' ip.sourceAddress ip.destinationAddress rest) = _
    rw [decompressNh, hnh, if_neg Bool.false_ne_true, hr.tf, hr.hopLimit, hnext']
    show Except.ok _ = _
    dsimp only
    rw [Nat.mod_eq_of_lt hlen]

theorem serialize_asRead (hlen : ip.payloadLength = n) : Ipv6Header.serialize
    { trafficClass := ip.asRead.trafficClass
      flowLabel := 0
      payloadLength := n
      nextHeader := ip.asRead.nextHeader
      hopLimit := ip.asRead.hopLimit
      sourceAddress := ip.asRead.sourceAddress
      destinationAddress := ip.asRead.destinationAddress } = { ip with flowLabel := 0 }.serialize := by
  rw [Ipv6Header.trafficClass_asRead, Ipv6Header.nextHeader_asRead, Ipv6Header.hopLimit_asRead, Ipv6Header.sourceAddress_asRead,
    Ipv6Header.destinationAddress_asRead, hlen]

theorem roundTrips_nil (hf : ip.Fits) {payload : List UInt8} (hlen : ip.payloadLength = payload.length)
    (hnext : canCompressLowPanNhc ip.nextHeader = false) :
    RoundTrips asserts nhc [] now now' raw raw' src dst (ip.serialize ++ payload) ↔ asserts = false ∧ ip.flowLabel = 0 := by
  have hread := Ipv6Header.deserialize_serialize hf payload
  have hfl := ip.flowLabel_asRead
  have hback := serialize_asRead hlen
  rw [← ip.nextHeader_asRead] at hnext
  generalize ip.asRead = ip' at hread hfl hnext hback
  cases asserts with
  | true =>
    refine iff_of_false ?_ fun h => Bool.noConfusion h.1
    rintro ⟨q, hq, -⟩
    rw [compressLowPanIphc, hread] at hq
    dsimp only at hq
    rw [compressHeader_asserts hfl] at hq
    cases hq
  | false =>
    have hlt : payload.length < 2 ^ 16 := hlen ▸ hf.payloadLength
    obtain ⟨q, hcompress, hdecompress⟩ := decompress_nil nhc now now' raw raw' src dst hread hfl hnext hlt
    rw [hback] at hdecompress
    have hfits : Ipv6Header.Fits { ip with flowLabel := 0 } := ⟨by norm_num, hf.payloadLength⟩
    constructor
    · rintro ⟨q', hq', hsame⟩
      obtain rfl := Option.some_inj.mp (hcompress.symm.trans hq')
      have heq := Except.ok.inj (hdecompress.symm.trans hsame)
      exact ⟨rfl, Ipv6Header.flowLabel_of_serialize_eq (h := { ip with flowLabel := 0 }) hfits hf rfl heq.symm⟩
    · rintro ⟨-, hzero⟩
      have hsame : { ip with flowLabel := 0 } = ip := by rw [← hzero]
      refine ⟨q, hcompress, ?_⟩
      rw [hdecompress, hsame]

theorem restoresAddresses_of_read (hv : table.Valid) (hu : table.Unexpired now') {packet payload : List UInt8}
    (hread : Ipv6Header.deserialize packet = some (ip, payload))
    (hfl : ip.flowLabel = Ipv6Header.versionAndClass ip.trafficClass) :
    RestoresAddresses asserts nhc table now now' raw raw' src dst packet ↔
      asserts = false ∧ SrcLossless table now src ip.sourceAddress ∧ DstLossless table now dst ip.destinationAddress := by
  cases asserts with
  | true =>
    refine iff_of_false ?_ fun h => Bool.noConfusion h.1
    rintro ⟨ip', rest, h, rest', q, encoding, hip, hcompress, -⟩
    obtain ⟨rfl, rfl⟩ := Prod.mk.inj (Option.some_inj.mp (hread.symm.trans hip))
    rw [compressHeader_asserts hfl] at hcompress
    cases hcompress
  | false =>
    obtain ⟨g, rest, hg, -, hspec⟩ := compressHeader_spec now hv hu nhc raw src dst hfl payload
    obtain ⟨g', hg', hr⟩ := hspec raw' rest
    obtain ⟨a, b, haddresses, ha, hb⟩ := hr.addresses
    constructor
    · rintro ⟨ip', rest1, h, rest2, q, encoding, hip, hcompress, hlen, hadd, hremove, hback⟩
      obtain ⟨rfl, rfl⟩ := Prod.mk.inj (Option.some_inj.mp (hread.symm.trans hip))
      obtain ⟨rfl, rfl⟩ := Prod.mk.inj (Option.some_inj.mp (hg.symm.trans hcompress))
      have hsize : ¬ g.StatefulMismatch :=
        (SixLowPanIphc.getSerializedSize_eq_iff g).mp ((SixLowPanIphc.length_serialize g).symm.trans hlen)
      rw [(addHeader_eq hsize rest).2] at hadd
      obtain rfl := Option.some_inj.mp hadd
      rw [removeHeader_eq hlen hg' hr.width] at hremove
      obtain rfl := Option.some_inj.mp hremove
      rw [haddresses] at hback
      obtain ⟨rfl, rfl⟩ := Prod.mk.inj (Except.ok.inj hback)
      refine ⟨rfl, ha.mp rfl, ?_⟩
      rcases hb.mp rfl with hm | hl
      · by_contra hl
        exact hsize (hr.size.mpr ⟨hm, hl⟩)
      · exact hl
    · rintro ⟨-, hsrc, hdst⟩
      have hsize : ¬ g.StatefulMismatch := fun h => (hr.size.mp h).2 hdst
      obtain ⟨hlen, hadd⟩ := addHeader_eq hsize rest
      refine ⟨ip, payload, g, rest, g.serialize ++ rest, g', hread, hg, hlen, hadd, ?_, ?_⟩
      · rw [removeHeader_eq hlen hg' hr.width]
        rfl
      · rw [haddresses, ha.mpr hsrc, hb.mpr (.inr hdst)]

/-- What is in memory, and a device that compresses no next header. -/
def zeroMemory : SixLowPanIphc := ⟨0, 0, 0, 0, 0, 0, 0, Ipv6Address.zeros, Ipv6Address.zeros⟩

def noNhc : Nhc := ⟨fun _ _ => none, fun _ _ _ => none⟩

/-- A header with the default flow label, and nothing after it. -/
def pingHeader : Ipv6Header := { nextHeader := 59, hopLimit := 64 }

theorem fits_pingHeader : pingHeader.Fits := ⟨by norm_num [pingHeader], by norm_num [pingHeader]⟩

/-- `2001:db8::`. -/
def siteAddress : Ipv6Address := memcpy Ipv6Address.zeros 0 [0x20, 0x01, 0x0d, 0xb8]

theorem getElem_siteAddress {i : ℕ} (hi : i < 16) (hlow : 4 ≤ i) : siteAddress[i] = 0 := by
  rw [siteAddress, getElem_memcpy, if_pos (Nat.zero_le i), List.getD_eq_default _ _ (by simpa using hlow)]
  simp [Ipv6Address.zeros]

/-- `2001:db8::/48`. -/
def siteContext : ContextTable := [(0, ⟨⟨siteAddress, 48⟩, true, 10⟩)]

theorem valid_siteContext : siteContext.Valid := by
  refine ⟨by decide, by simp [siteContext], fun c hc => ?_⟩
  obtain rfl := List.mem_singleton.mp hc
  refine ⟨by decide, fun i hi heq => ?_, fun i hi hlt => ?_⟩
  · have heq' : i = 6 := heq
    show siteAddress[i] &&& _ = 0
    rw [getElem_siteAddress hi (by omega), UInt8.zero_and]
  · have hlt' : 6 < i := hlt
    exact getElem_siteAddress hi (by omega)

theorem unexpired_siteContext : siteContext.Unexpired 0 := by
  intro c hc
  obtain rfl := List.mem_singleton.mp hc
  decide

def subnetHeader : Ipv6Header := { pingHeader with sourceAddress := memcpy siteAddress 7 [0x01] }

end Packets

end Ns3Ndn.Sixlowpan
