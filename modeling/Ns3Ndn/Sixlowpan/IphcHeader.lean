import Ns3Ndn.Internet.Ipv6Header
import Ns3Ndn.Lib.BitField

/-!
# The header of compressed IPv6 headers

`sixlowpan/model/sixlowpan-header.cc`, `SixLowPanIphc`: a base format of sixteen bits says which of the other fields follow, and how long
they are.

* `Received`, **`deserialize_serialize`**: what is read of a header that was written;
* `StatefulMismatch`, **`length_serialize_eq_iff`**: the headers whose size is not the one that is written.
-/

namespace Ns3Ndn.Sixlowpan

open BytesLib BitFieldLib Internet

/-! ## The base format -/

inductive TrafficClassFlowLabel where
  | full
  | dscpElided
  | flElided
  | elided
  deriving DecidableEq, Repr

inductive Hlim where
  | inline
  | compr1
  | compr64
  | compr255
  deriving DecidableEq, Repr

inductive HeaderCompression where
  | inline
  | compr64
  | compr16
  | compr0
  deriving DecidableEq, Repr

namespace TrafficClassFlowLabel

def code : TrafficClassFlowLabel → ℕ
  | full => 0
  | dscpElided => 1
  | flElided => 2
  | elided => 3

def ofCode : ℕ → TrafficClassFlowLabel
  | 0 => full
  | 1 => dscpElided
  | 2 => flElided
  | _ => elided

theorem code_lt (tf : TrafficClassFlowLabel) : tf.code < 2 ^ 2 := by cases tf <;> decide

@[simp] theorem ofCode_code (tf : TrafficClassFlowLabel) : ofCode tf.code = tf := by cases tf <;> rfl

end TrafficClassFlowLabel

namespace Hlim

def code : Hlim → ℕ
  | inline => 0
  | compr1 => 1
  | compr64 => 2
  | compr255 => 3

def ofCode : ℕ → Hlim
  | 0 => inline
  | 1 => compr1
  | 2 => compr64
  | _ => compr255

def value (inline : UInt8) : Hlim → UInt8
  | .inline => inline
  | .compr1 => 1
  | .compr64 => 64
  | .compr255 => 255

theorem code_lt (hlim : Hlim) : hlim.code < 2 ^ 2 := by cases hlim <;> decide

@[simp] theorem ofCode_code (hlim : Hlim) : ofCode hlim.code = hlim := by cases hlim <;> rfl

end Hlim

namespace HeaderCompression

def code : HeaderCompression → ℕ
  | inline => 0
  | compr64 => 1
  | compr16 => 2
  | compr0 => 3

def ofCode : ℕ → HeaderCompression
  | 0 => inline
  | 1 => compr64
  | 2 => compr16
  | _ => compr0

theorem code_lt (hc : HeaderCompression) : hc.code < 2 ^ 2 := by cases hc <;> decide

@[simp] theorem ofCode_code (hc : HeaderCompression) : ofCode hc.code = hc := by cases hc <;> rfl

end HeaderCompression

/-- The base format is of type `uint16_t`, and the flow label of type `uint32_t`. The constructor leaves some of the fields as they are in
memory. -/
structure SixLowPanIphc where
  baseFormat : ℕ
  srcdstContextId : UInt8
  ecn : UInt8
  dscp : UInt8
  flowLabel : ℕ
  nextHeader : UInt8
  hopLimit : UInt8
  srcInlinePart : Vector UInt8 16
  dstInlinePart : Vector UInt8 16
  deriving DecidableEq

namespace SixLowPanIphc

/-- The constructor, with what is in memory. -/
def init (raw : SixLowPanIphc) : SixLowPanIphc := { raw with baseFormat := 0x6000, srcdstContextId := 0 }

variable (h : SixLowPanIphc)

def getTf : TrafficClassFlowLabel := .ofCode (h.baseFormat >>> 11 &&& 0x3)

def getNh : Bool := h.baseFormat >>> 10 &&& 0x1 ≠ 0

def getHlim : Hlim := .ofCode (h.baseFormat >>> 8 &&& 0x3)

def getCid : Bool := h.baseFormat >>> 7 &&& 0x1 ≠ 0

def getSac : Bool := h.baseFormat >>> 6 &&& 0x1 ≠ 0

def getSam : HeaderCompression := .ofCode (h.baseFormat >>> 4 &&& 0x3)

def getM : Bool := h.baseFormat >>> 3 &&& 0x1 ≠ 0

def getDac : Bool := h.baseFormat >>> 2 &&& 0x1 ≠ 0

def getDam : HeaderCompression := .ofCode (h.baseFormat &&& 0x3)

def setBits (bits : ℕ) : SixLowPanIphc := { h with baseFormat := h.baseFormat ||| bits }

def setTf (tfField : TrafficClassFlowLabel) : SixLowPanIphc := h.setBits (tfField.code <<< 11)

def setNh (nhField : Bool) : SixLowPanIphc := h.setBits (nhField.toNat <<< 10)

def setHlim (hlimField : Hlim) : SixLowPanIphc := h.setBits (hlimField.code <<< 8)

def setCid (cidField : Bool) : SixLowPanIphc := h.setBits (cidField.toNat <<< 7)

def setSac (sacField : Bool) : SixLowPanIphc := h.setBits (sacField.toNat <<< 6)

def setSam (samField : HeaderCompression) : SixLowPanIphc := h.setBits (samField.code <<< 4)

def setM (mField : Bool) : SixLowPanIphc := h.setBits (mField.toNat <<< 3)

def setDac (dacField : Bool) : SixLowPanIphc := h.setBits (dacField.toNat <<< 2)

def setDam (damField : HeaderCompression) : SixLowPanIphc := h.setBits damField.code

def setSrcContextId (id : UInt8) : SixLowPanIphc := { h with srcdstContextId := h.srcdstContextId ||| id <<< 4 }

def getSrcContextId : UInt8 := h.srcdstContextId >>> 4

def setDstContextId (id : UInt8) : SixLowPanIphc := { h with srcdstContextId := h.srcdstContextId ||| (id &&& 0xF) }

def getDstContextId : UInt8 := h.srcdstContextId &&& 0xF

def setSrcInlinePart (part : List UInt8) : SixLowPanIphc := { h with srcInlinePart := memcpy h.srcInlinePart 0 part }

def setDstInlinePart (part : List UInt8) : SixLowPanIphc := { h with dstInlinePart := memcpy h.dstInlinePart 0 part }

/-! ## Bytes -/

def getSerializedSize : ℕ :=
  2 + (if h.getCid then 1 else 0)
    + (match h.getTf with
      | .full => 4
      | .dscpElided => 3
      | .flElided => 1
      | .elided => 0)
    + (if h.getNh then 0 else 1)
    + (if h.getHlim = .inline then 1 else 0)
    + (match h.getSam with
      | .inline => if h.getSac then 0 else 16
      | .compr64 => 8
      | .compr16 => 2
      | .compr0 => 0)
    + if h.getM then
        match h.getDam with
        | .inline => if h.getDac then 6 else 16
        | .compr64 => if h.getDac then 0 else 6
        | .compr16 => if h.getDac then 0 else 4
        | .compr0 => if h.getDac then 0 else 1
      else
        match h.getDam with
        | .inline => if h.getDac then 0 else 16
        | .compr64 => 8
        | .compr16 => 2
        | .compr0 => 0

/-- Each byte is what is left of the number in a `uint8_t`. -/
def serializeTf : List UInt8 :=
  match h.getTf with
  | .full => [h.ecn <<< 6 ||| h.dscp, UInt8.ofNat (h.flowLabel >>> 16), UInt8.ofNat (h.flowLabel >>> 8), UInt8.ofNat h.flowLabel]
  | .dscpElided =>
    [h.ecn <<< 6 ||| UInt8.ofNat (h.flowLabel >>> 16), UInt8.ofNat (h.flowLabel >>> 8), UInt8.ofNat h.flowLabel]
  | .flElided => [h.ecn <<< 6 ||| h.dscp]
  | .elided => []

/-- The number of bytes of the source address that are written and read. -/
def srcWidth : ℕ :=
  match h.getSam with
  | .inline => if h.getSac then 0 else 16
  | .compr64 => 8
  | .compr16 => 2
  | .compr0 => 0

/-- The number of bytes of the destination address that are written and read. The mode of the context is not looked at. -/
def dstWidth : ℕ :=
  if h.getM then
    match h.getDam with
    | .inline => 16
    | .compr64 => 6
    | .compr16 => 4
    | .compr0 => 1
  else
    match h.getDam with
    | .inline => 16
    | .compr64 => 8
    | .compr16 => 2
    | .compr0 => 0

def serialize : List UInt8 :=
  be16 h.baseFormat ++ (if h.getCid then [h.srcdstContextId] else []) ++ h.serializeTf ++ (if h.getNh then [] else [h.nextHeader])
    ++ (if h.getHlim = .inline then [h.hopLimit] else []) ++ slice h.srcInlinePart 0 h.srcWidth ++ slice h.dstInlinePart 0 h.dstWidth

def deserializeCid (bytes : List UInt8) : Option (SixLowPanIphc × List UInt8) :=
  if h.getCid then (readU8 bytes).map fun r => ({ h with srcdstContextId := r.1 }, r.2) else some ({ h with srcdstContextId := 0 }, bytes)

def deserializeTf (bytes : List UInt8) : Option (SixLowPanIphc × List UInt8) :=
  match h.getTf with
  | .full => (readU8 bytes).bind fun b => (readU8 b.2).bind fun f => (readU8 f.2).bind fun f' => (readU8 f'.2).map fun f'' =>
    ({ h with
      ecn := b.1 >>> 6
      dscp := b.1 &&& 0x3F
      flowLabel := (f.1.toNat <<< 8 ||| f'.1.toNat) <<< 8 ||| f''.1.toNat }, f''.2)
  | .dscpElided => (readU8 bytes).bind fun b => (readU8 b.2).bind fun f => (readU8 f.2).map fun f' =>
    ({ h with
      ecn := b.1 >>> 6
      flowLabel := ((b.1 &&& 0x3F).toNat <<< 8 ||| f.1.toNat) <<< 8 ||| f'.1.toNat }, f'.2)
  | .flElided => (readU8 bytes).map fun b : UInt8 × List UInt8 => ({ h with ecn := b.1 >>> 6, dscp := b.1 &&& 0x3F }, b.2)
  | .elided => some (h, bytes)

def deserializeNextHeader (bytes : List UInt8) : Option (SixLowPanIphc × List UInt8) :=
  if h.getNh then some (h, bytes) else (readU8 bytes).map fun r => ({ h with nextHeader := r.1 }, r.2)

def deserializeHopLimit (bytes : List UInt8) : Option (SixLowPanIphc × List UInt8) :=
  match h.getHlim with
  | .inline => (readU8 bytes).map fun r => ({ h with hopLimit := r.1 }, r.2)
  | .compr1 => some ({ h with hopLimit := 1 }, bytes)
  | .compr64 => some ({ h with hopLimit := 64 }, bytes)
  | .compr255 => some ({ h with hopLimit := 255 }, bytes)

def deserializeSrc (bytes : List UInt8) : Option (SixLowPanIphc × List UInt8) :=
  (takeBytes h.srcWidth bytes).map fun r => ({ h with srcInlinePart := memcpy Ipv6Address.zeros 0 r.1 }, r.2)

def deserializeDst (bytes : List UInt8) : Option (SixLowPanIphc × List UInt8) :=
  (takeBytes h.dstWidth bytes).map fun r => ({ h with dstInlinePart := memcpy Ipv6Address.zeros 0 r.1 }, r.2)

def deserialize (bytes : List UInt8) : Option (SixLowPanIphc × List UInt8) :=
  (readBe16 bytes).bind fun r => (deserializeCid { h with baseFormat := r.1 } r.2).bind fun r => (r.1.deserializeTf r.2).bind fun r =>
    (r.1.deserializeNextHeader r.2).bind fun r => (r.1.deserializeHopLimit r.2).bind fun r =>
    (r.1.deserializeSrc r.2).bind fun r => r.1.deserializeDst r.2

/-- `Packet::AddHeader`: there is room for the size of the header. What is written beyond it is written over the packet. -/
def addHeader (packet : List UInt8) : Option (List UInt8) :=
  if h.serialize.length ≤ h.getSerializedSize + packet.length then
    some (h.serialize ++ packet.drop (h.serialize.length - h.getSerializedSize))
  else none

/-- `Packet::RemoveHeader`: the size of the header that was read is removed. -/
def removeHeader (packet : List UInt8) : Option (SixLowPanIphc × List UInt8) :=
  (h.deserialize packet).map fun r => (r.1, packet.drop r.1.getSerializedSize)

/-! ## Sizes -/

/-- The number of bytes that are written and read. -/
def width : ℕ :=
  2 + (if h.getCid then 1 else 0)
    + (match h.getTf with
      | .full => 4
      | .dscpElided => 3
      | .flElided => 1
      | .elided => 0)
    + (if h.getNh then 0 else 1)
    + (if h.getHlim = .inline then 1 else 0)
    + h.srcWidth + h.dstWidth

/-- A stateful destination address of which more bytes are written and read than the size says. -/
def StatefulMismatch : Prop := h.getDac = true ∧ (h.getM = true ∨ h.getDam = .inline)

section Size

variable {h}

theorem srcWidth_le : h.srcWidth ≤ 16 := by
  unfold srcWidth
  split
  · split <;> decide
  all_goals decide

theorem dstWidth_le : h.dstWidth ≤ 16 := by
  unfold dstWidth
  split <;> split <;> decide

theorem length_serialize (h : SixLowPanIphc) : h.serialize.length = h.width := by
  have htf : h.serializeTf.length = match h.getTf with
      | .full => 4
      | .dscpElided => 3
      | .flElided => 1
      | .elided => 0 := by
    unfold serializeTf
    cases h.getTf <;> rfl
  have hcid : (if h.getCid then [h.srcdstContextId] else []).length = if h.getCid then 1 else 0 := by
    cases h.getCid <;> rfl
  have hnh : (if h.getNh then [] else [h.nextHeader]).length = if h.getNh then 0 else 1 := by
    cases h.getNh <;> rfl
  have hhlim : (if h.getHlim = .inline then [h.hopLimit] else []).length = if h.getHlim = .inline then 1 else 0 := by
    split_ifs <;> rfl
  have hsrc : (slice h.srcInlinePart 0 h.srcWidth).length = h.srcWidth := length_slice _ (by have := srcWidth_le (h := h); omega)
  have hdst : (slice h.dstInlinePart 0 h.dstWidth).length = h.dstWidth := length_slice _ (by have := dstWidth_le (h := h); omega)
  unfold serialize width
  simp only [List.length_append, length_be16, htf, hcid, hnh, hhlim, hsrc, hdst]

theorem getSerializedSize_eq_iff (h : SixLowPanIphc) : h.width = h.getSerializedSize ↔ ¬ h.StatefulMismatch := by
  unfold width getSerializedSize StatefulMismatch srcWidth dstWidth
  rw [Nat.add_left_cancel_iff]
  cases h.getM <;> cases h.getDam <;> cases h.getDac <;> simp

structure Takes (h h' : SixLowPanIphc) (bytes rest : List UInt8) (n : ℕ) : Prop where
  baseFormat : h'.baseFormat = h.baseFormat
  length : bytes.length = n + rest.length

theorem eq_of_baseFormat {α : Type} (f : SixLowPanIphc → α) (hf : ∀ g : SixLowPanIphc, f g = f { h with baseFormat := g.baseFormat })
    {h' : SixLowPanIphc} (heq : h'.baseFormat = h.baseFormat) : f h' = f h := by
  rw [hf h', heq]

variable {bytes : List UInt8} {r : SixLowPanIphc × List UInt8}

theorem Takes.cid (hr : h.deserializeCid bytes = some r) : Takes h r.1 bytes r.2 (if h.getCid then 1 else 0) := by
  unfold deserializeCid at hr
  cases hcid : h.getCid with
  | true =>
    rw [hcid, if_pos rfl] at hr
    obtain ⟨b, hb, rfl⟩ := Option.map_eq_some_iff.mp hr
    exact ⟨rfl, length_of_readU8 hb⟩
  | false =>
    rw [hcid, if_neg Bool.false_ne_true] at hr
    obtain rfl := Option.some_inj.mp hr
    exact ⟨rfl, (Nat.zero_add _).symm⟩

theorem Takes.tf (hr : h.deserializeTf bytes = some r) : Takes h r.1 bytes r.2 (match h.getTf with
    | .full => 4
    | .dscpElided => 3
    | .flElided => 1
    | .elided => 0) := by
  unfold deserializeTf at hr
  cases htf : h.getTf with
  | full =>
    rw [htf] at hr
    obtain ⟨b, hb, hr⟩ := Option.bind_eq_some_iff.mp hr
    obtain ⟨f, hf, hr⟩ := Option.bind_eq_some_iff.mp hr
    obtain ⟨f', hf', hr⟩ := Option.bind_eq_some_iff.mp hr
    obtain ⟨f'', hf'', rfl⟩ := Option.map_eq_some_iff.mp hr
    refine ⟨rfl, ?_⟩
    rw [length_of_readU8 hb, length_of_readU8 hf, length_of_readU8 hf', length_of_readU8 hf'']
    ring
  | dscpElided =>
    rw [htf] at hr
    obtain ⟨b, hb, hr⟩ := Option.bind_eq_some_iff.mp hr
    obtain ⟨f, hf, hr⟩ := Option.bind_eq_some_iff.mp hr
    obtain ⟨f', hf', rfl⟩ := Option.map_eq_some_iff.mp hr
    refine ⟨rfl, ?_⟩
    rw [length_of_readU8 hb, length_of_readU8 hf, length_of_readU8 hf']
    ring
  | flElided =>
    rw [htf] at hr
    obtain ⟨b, hb, rfl⟩ := Option.map_eq_some_iff.mp hr
    exact ⟨rfl, length_of_readU8 hb⟩
  | elided =>
    rw [htf] at hr
    obtain rfl := Option.some_inj.mp hr
    exact ⟨rfl, (Nat.zero_add _).symm⟩

theorem Takes.nextHeader (hr : h.deserializeNextHeader bytes = some r) : Takes h r.1 bytes r.2 (if h.getNh then 0 else 1) := by
  unfold deserializeNextHeader at hr
  cases hnh : h.getNh with
  | true =>
    rw [hnh, if_pos rfl] at hr
    obtain rfl := Option.some_inj.mp hr
    exact ⟨rfl, (Nat.zero_add _).symm⟩
  | false =>
    rw [hnh, if_neg Bool.false_ne_true] at hr
    obtain ⟨b, hb, rfl⟩ := Option.map_eq_some_iff.mp hr
    exact ⟨rfl, length_of_readU8 hb⟩

theorem Takes.hopLimit (hr : h.deserializeHopLimit bytes = some r) :
    Takes h r.1 bytes r.2 (if h.getHlim = .inline then 1 else 0) := by
  unfold deserializeHopLimit at hr
  cases hhlim : h.getHlim with
  | inline =>
    rw [hhlim] at hr
    obtain ⟨b, hb, rfl⟩ := Option.map_eq_some_iff.mp hr
    exact ⟨rfl, length_of_readU8 hb⟩
  | compr1 | compr64 | compr255 =>
    rw [hhlim] at hr
    obtain rfl := Option.some_inj.mp hr
    exact ⟨rfl, (Nat.zero_add _).symm⟩

theorem Takes.src (hr : h.deserializeSrc bytes = some r) : Takes h r.1 bytes r.2 h.srcWidth := by
  obtain ⟨part, hpart, rfl⟩ := Option.map_eq_some_iff.mp hr
  exact ⟨rfl, length_of_takeBytes hpart⟩

theorem Takes.dst (hr : h.deserializeDst bytes = some r) : Takes h r.1 bytes r.2 h.dstWidth := by
  obtain ⟨part, hpart, rfl⟩ := Option.map_eq_some_iff.mp hr
  exact ⟨rfl, length_of_takeBytes hpart⟩

/-- As many bytes are read as are written of the header that is read. -/
theorem length_of_deserialize (hr : h.deserialize bytes = some r) : bytes.length = r.1.width + r.2.length := by
  obtain ⟨b, hb, hr⟩ := Option.bind_eq_some_iff.mp hr
  obtain ⟨r1, hr1, hr⟩ := Option.bind_eq_some_iff.mp hr
  obtain ⟨r2, hr2, hr⟩ := Option.bind_eq_some_iff.mp hr
  obtain ⟨r3, hr3, hr⟩ := Option.bind_eq_some_iff.mp hr
  obtain ⟨r4, hr4, hr⟩ := Option.bind_eq_some_iff.mp hr
  obtain ⟨r5, hr5, hr⟩ := Option.bind_eq_some_iff.mp hr
  have hbase := length_of_readBe16 hb
  have h1 := Takes.cid hr1
  have h2 := Takes.tf hr2
  have h3 := Takes.nextHeader hr3
  have h4 := Takes.hopLimit hr4
  have h5 := Takes.src hr5
  have h6 := Takes.dst hr
  have e1 := h1.baseFormat
  have e2 := h2.baseFormat.trans e1
  have e3 := h3.baseFormat.trans e2
  have e4 := h4.baseFormat.trans e3
  have e5 := h5.baseFormat.trans e4
  have e6 := h6.baseFormat.trans e5
  rw [eq_of_baseFormat width (fun _ => rfl) e6, hbase, h1.length, h2.length, h3.length, h4.length, h5.length, h6.length,
    eq_of_baseFormat getTf (fun _ => rfl) e1, eq_of_baseFormat getNh (fun _ => rfl) e2, eq_of_baseFormat getHlim (fun _ => rfl) e3,
    eq_of_baseFormat srcWidth (fun _ => rfl) e4, eq_of_baseFormat dstWidth (fun _ => rfl) e5]
  unfold width
  ring

end Size

/-! ## Written and read -/

/-- The fields have the widths of the format. Where the flow label has twenty-two bits, there is nothing in the two bits above. -/
structure Fits : Prop where
  baseFormat : h.baseFormat < 2 ^ 16
  ecn : h.getTf ≠ .elided → h.ecn < 4
  dscp : h.getTf = .full ∨ h.getTf = .flElided → h.dscp < 64
  flowLabel : h.getTf = .dscpElided → h.flowLabel % 2 ^ 24 < 2 ^ 22

/-- What is read of a header: the fields that are in the bytes. -/
structure Received (h h' : SixLowPanIphc) : Prop where
  baseFormat : h'.baseFormat = h.baseFormat
  srcdstContextId : h'.srcdstContextId = if h.getCid then h.srcdstContextId else 0
  ecn : h.getTf ≠ .elided → h'.ecn = h.ecn
  dscp : h.getTf = .full ∨ h.getTf = .flElided → h'.dscp = h.dscp
  flowLabel : h.getTf = .full ∨ h.getTf = .dscpElided → h'.flowLabel = h.flowLabel % 2 ^ 24
  nextHeader : h.getNh = false → h'.nextHeader = h.nextHeader
  hopLimit : h'.hopLimit = h.getHlim.value h.hopLimit
  src : slice h'.srcInlinePart 0 h.srcWidth = slice h.srcInlinePart 0 h.srcWidth
  dst : slice h'.dstInlinePart 0 h.dstWidth = slice h.dstInlinePart 0 h.dstWidth

section RoundTrip

variable {h} {g : SixLowPanIphc} {rest : List UInt8}

theorem shiftLeft_six_or : ∀ (ecn : Fin 4) (dscp : Fin 64),
    (UInt8.ofNat ecn <<< 6 ||| UInt8.ofNat dscp) >>> 6 = UInt8.ofNat ecn ∧
      (UInt8.ofNat ecn <<< 6 ||| UInt8.ofNat dscp) &&& 0x3F = UInt8.ofNat dscp := by
  decide

theorem ecn_dscp {ecn dscp : UInt8} (hecn : ecn < 4) (hdscp : dscp < 64) :
    (ecn <<< 6 ||| dscp) >>> 6 = ecn ∧ (ecn <<< 6 ||| dscp) &&& 0x3F = dscp := by
  have := shiftLeft_six_or ⟨ecn.toNat, hecn⟩ ⟨dscp.toNat, hdscp⟩
  simpa using this

theorem flowLabel_bytes (v : ℕ) : ((v >>> 16 % 2 ^ 8) <<< 8 ||| v >>> 8 % 2 ^ 8) <<< 8 ||| v % 2 ^ 8 = v % 2 ^ 24 := by
  have hhigh : (v >>> 16 % 2 ^ 8) <<< 8 ||| v >>> 8 % 2 ^ 8 = v >>> 8 % 2 ^ 16 := by
    rw [← Nat.shiftLeft_add_eq_or_of_lt (Nat.mod_lt _ (by decide))]
    simp only [Nat.shiftLeft_eq, Nat.shiftRight_eq_div_pow]
    omega
  rw [hhigh, ← Nat.shiftLeft_add_eq_or_of_lt (Nat.mod_lt _ (by decide))]
  simp only [Nat.shiftLeft_eq, Nat.shiftRight_eq_div_pow]
  omega

theorem deserializeTf_serializeTf (hf : h.Fits) (hg : g.getTf = h.getTf) : ∃ g' : SixLowPanIphc,
    g.deserializeTf (h.serializeTf ++ rest) = some (g', rest) ∧
      g' = { g with ecn := g'.ecn, dscp := g'.dscp, flowLabel := g'.flowLabel } ∧ (h.getTf ≠ .elided → g'.ecn = h.ecn) ∧
      (h.getTf = .full ∨ h.getTf = .flElided → g'.dscp = h.dscp) ∧
      (h.getTf = .full ∨ h.getTf = .dscpElided → g'.flowLabel = h.flowLabel % 2 ^ 24) := by
  unfold deserializeTf serializeTf
  rw [hg]
  cases htf : h.getTf with
  | full =>
    obtain ⟨hecn, hdscp⟩ := ecn_dscp (hf.ecn (by rw [htf]; decide)) (hf.dscp (.inl htf))
    refine ⟨_, rfl, rfl, fun _ => hecn, fun _ => hdscp, fun _ => ?_⟩
    simp only [UInt8.toNat_ofNat']
    exact flowLabel_bytes h.flowLabel
  | dscpElided =>
    have hlow := hf.flowLabel htf
    have hsix : UInt8.ofNat (h.flowLabel >>> 16) < 64 := by
      rw [UInt8.lt_iff_toNat_lt, UInt8.toNat_ofNat', Nat.shiftRight_eq_div_pow]
      show h.flowLabel / 2 ^ 16 % 2 ^ 8 < 64
      omega
    obtain ⟨hecn', hflow⟩ := ecn_dscp (hf.ecn (by rw [htf]; decide)) hsix
    refine ⟨_, rfl, rfl, fun _ => hecn', by simp, fun _ => ?_⟩
    dsimp only
    rw [hflow]
    simp only [UInt8.toNat_ofNat']
    exact flowLabel_bytes h.flowLabel
  | flElided =>
    obtain ⟨hecn, hdscp⟩ := ecn_dscp (hf.ecn (by rw [htf]; decide)) (hf.dscp (.inr htf))
    exact ⟨_, rfl, rfl, fun _ => hecn, fun _ => hdscp, by simp⟩
  | elided => exact ⟨_, rfl, rfl, by simp, by simp, by simp⟩

theorem deserializeCid_append (hg : g.getCid = h.getCid) : ∃ g',
    g.deserializeCid ((if h.getCid then [h.srcdstContextId] else []) ++ rest) = some (g', rest) ∧ g'.baseFormat = g.baseFormat ∧
      g'.srcdstContextId = if h.getCid then h.srcdstContextId else 0 := by
  unfold deserializeCid
  rw [hg]
  cases h.getCid <;> exact ⟨_, rfl, rfl, rfl⟩

theorem deserializeNextHeader_append (hg : g.getNh = h.getNh) : ∃ g',
    g.deserializeNextHeader ((if h.getNh then [] else [h.nextHeader]) ++ rest) = some (g', rest) ∧
      g' = { g with nextHeader := g'.nextHeader } ∧ (h.getNh = false → g'.nextHeader = h.nextHeader) := by
  unfold deserializeNextHeader
  rw [hg]
  cases h.getNh with
  | true => exact ⟨_, rfl, rfl, by simp⟩
  | false => exact ⟨_, rfl, rfl, fun _ => rfl⟩

theorem deserializeHopLimit_append (hg : g.getHlim = h.getHlim) : ∃ g',
    g.deserializeHopLimit ((if h.getHlim = .inline then [h.hopLimit] else []) ++ rest) = some (g', rest) ∧
      g' = { g with hopLimit := g'.hopLimit } ∧ g'.hopLimit = h.getHlim.value h.hopLimit := by
  unfold deserializeHopLimit
  rw [hg]
  cases h.getHlim <;> exact ⟨_, rfl, rfl, rfl⟩

theorem deserializeSrc_append (hg : g.srcWidth = h.srcWidth) : ∃ g',
    g.deserializeSrc (slice h.srcInlinePart 0 h.srcWidth ++ rest) = some (g', rest) ∧
      g' = { g with srcInlinePart := g'.srcInlinePart } ∧
      slice g'.srcInlinePart 0 h.srcWidth = slice h.srcInlinePart 0 h.srcWidth := by
  have hlen : (slice h.srcInlinePart 0 h.srcWidth).length = h.srcWidth := length_slice _ ((Nat.zero_add _).trans_le srcWidth_le)
  unfold deserializeSrc
  rw [hg, takeBytes_append hlen]
  exact ⟨_, rfl, rfl, slice_memcpy _ hlen srcWidth_le⟩

theorem deserializeDst_append (hg : g.dstWidth = h.dstWidth) : ∃ g',
    g.deserializeDst (slice h.dstInlinePart 0 h.dstWidth ++ rest) = some (g', rest) ∧
      g' = { g with dstInlinePart := g'.dstInlinePart } ∧
      slice g'.dstInlinePart 0 h.dstWidth = slice h.dstInlinePart 0 h.dstWidth := by
  have hlen : (slice h.dstInlinePart 0 h.dstWidth).length = h.dstWidth := length_slice _ ((Nat.zero_add _).trans_le dstWidth_le)
  unfold deserializeDst
  rw [hg, takeBytes_append hlen]
  exact ⟨_, rfl, rfl, slice_memcpy _ hlen dstWidth_le⟩

/-- **A header that is written and read.** -/
theorem deserialize_serialize (hf : h.Fits) (g : SixLowPanIphc) (rest : List UInt8) :
    ∃ h', g.deserialize (h.serialize ++ rest) = some (h', rest) ∧ Received h h' := by
  have hbytes : h.serialize ++ rest = be16 h.baseFormat ++ ((if h.getCid then [h.srcdstContextId] else []) ++ (h.serializeTf ++
      ((if h.getNh then [] else [h.nextHeader]) ++ ((if h.getHlim = .inline then [h.hopLimit] else []) ++
      (slice h.srcInlinePart 0 h.srcWidth ++ (slice h.dstInlinePart 0 h.dstWidth ++ rest)))))) := by
    simp only [serialize, List.append_assoc]
  unfold deserialize
  rw [hbytes, readBe16_be16 hf.baseFormat, Option.bind_some]
  obtain ⟨g1, hg1, hb1, hcid⟩ := deserializeCid_append (h := h) (g := { g with baseFormat := h.baseFormat }) rfl
  rw [hg1, Option.bind_some]
  obtain ⟨g2, hg2, heq2, hecn, hdscp, hflow⟩ := deserializeTf_serializeTf (g := g1) hf (eq_of_baseFormat getTf (fun _ => rfl) hb1)
  have hb2 : g2.baseFormat = h.baseFormat := by rw [heq2, hb1]
  rw [hg2, Option.bind_some]
  obtain ⟨g3, hg3, heq3, hnext⟩ := deserializeNextHeader_append (h := h) (g := g2) (eq_of_baseFormat getNh (fun _ => rfl) hb2)
  have hb3 : g3.baseFormat = h.baseFormat := by rw [heq3, hb2]
  rw [hg3, Option.bind_some]
  obtain ⟨g4, hg4, heq4, hhop⟩ := deserializeHopLimit_append (h := h) (g := g3) (eq_of_baseFormat getHlim (fun _ => rfl) hb3)
  have hb4 : g4.baseFormat = h.baseFormat := by rw [heq4, hb3]
  rw [hg4, Option.bind_some]
  obtain ⟨g5, hg5, heq5, hsrc⟩ := deserializeSrc_append (h := h) (g := g4) (eq_of_baseFormat srcWidth (fun _ => rfl) hb4)
  have hb5 : g5.baseFormat = h.baseFormat := by rw [heq5, hb4]
  rw [hg5, Option.bind_some]
  obtain ⟨g6, hg6, heq6, hdst⟩ := deserializeDst_append (h := h) (g := g5) (eq_of_baseFormat dstWidth (fun _ => rfl) hb5)
  refine ⟨g6, hg6, ?_⟩
  constructor
  · rw [heq6, hb5]
  · rw [heq6, heq5, heq4, heq3, heq2]
    exact hcid
  · rw [heq6, heq5, heq4, heq3]
    exact hecn
  · rw [heq6, heq5, heq4, heq3]
    exact hdscp
  · rw [heq6, heq5, heq4, heq3]
    exact hflow
  · rw [heq6, heq5, heq4]
    exact hnext
  · rw [heq6, heq5]
    exact hhop
  · rw [heq6]
    exact hsrc
  · exact hdst

end RoundTrip

end SixLowPanIphc

end Ns3Ndn.Sixlowpan
