import Ns3Ndn.Internet.UdpHeader

/-!
# Compressing UDP headers

`sixlowpan/model/sixlowpan-net-device.cc`, `CompressLowPanUdpNhc` and `DecompressLowPanUdpNhc`, with the header of
`sixlowpan-header.cc`. Ports of the ranges `0xf0` and `0xf0b` are shortened to their last 8 or 4 bits. The decompressor keeps its
constant in the low bits of the port it puts together, so that most of these ports do not come back.

* `deserialize_serialize`: what is read of a header that was written;
* **`decompress_compress_iff`**: the datagrams that come back.
-/

namespace Ns3Ndn.Sixlowpan

open BytesLib Internet

inductive Ports where
  | inline
  | allSrcLastDst
  | lastSrcAllDst
  | lastSrcLastDst
  deriving DecidableEq, Repr

namespace Ports

def code : Ports → UInt8
  | inline => 0
  | allSrcLastDst => 1
  | lastSrcAllDst => 2
  | lastSrcLastDst => 3

def ofCode : UInt8 → Ports
  | 0 => inline
  | 1 => allSrcLastDst
  | 2 => lastSrcAllDst
  | _ => lastSrcLastDst

end Ports

/-! ## The header -/

@[ext]
structure SixLowPanUdpNhcExtension where
  baseFormat : UInt8 := 0xf0
  checksum : UInt16 := 0
  srcPort : UInt16 := 0
  dstPort : UInt16 := 0

namespace SixLowPanUdpNhcExtension

variable (e : SixLowPanUdpNhcExtension)

def setPorts (ports : Ports) : SixLowPanUdpNhcExtension := { e with baseFormat := e.baseFormat ||| ports.code }

def getPorts : Ports := Ports.ofCode (e.baseFormat &&& 0x3)

def setC (cField : Bool) : SixLowPanUdpNhcExtension := { e with baseFormat := e.baseFormat ||| (cField.toUInt8 <<< 2) }

def getC : Bool := (e.baseFormat >>> 2) &&& 0x1 ≠ 0

def getSerializedSize : ℕ :=
  1 + (if e.getC then 0 else 2) +
    match e.getPorts with
    | .inline => 4
    | .allSrcLastDst => 3
    | .lastSrcAllDst => 3
    | .lastSrcLastDst => 1

def serializePorts : List UInt8 :=
  match e.getPorts with
  | .inline => be16 e.srcPort.toNat ++ be16 e.dstPort.toNat
  | .allSrcLastDst => be16 e.srcPort.toNat ++ [(e.dstPort &&& 0xff).toUInt8]
  | .lastSrcAllDst => (e.srcPort &&& 0xff).toUInt8 :: be16 e.dstPort.toNat
  | .lastSrcLastDst => [(((e.srcPort &&& 0xf) <<< 4) ||| (e.dstPort &&& 0xf)).toUInt8]

def serialize : List UInt8 :=
  e.baseFormat :: (e.serializePorts ++ if e.getC then [] else le16 e.checksum.toNat)

def deserializePorts (bytes : List UInt8) : Option (SixLowPanUdpNhcExtension × List UInt8) :=
  match e.getPorts with
  | .inline => (readBe16 bytes).bind fun src => (readBe16 src.2).map fun dst =>
    ({ e with srcPort := UInt16.ofNat src.1, dstPort := UInt16.ofNat dst.1 }, dst.2)
  | .allSrcLastDst => (readBe16 bytes).bind fun src => (readU8 src.2).map fun dst =>
    ({ e with srcPort := UInt16.ofNat src.1, dstPort := dst.1.toUInt16 }, dst.2)
  | .lastSrcAllDst => (readU8 bytes).bind fun src => (readBe16 src.2).map fun dst =>
    ({ e with srcPort := src.1.toUInt16, dstPort := UInt16.ofNat dst.1 }, dst.2)
  | .lastSrcLastDst => (readU8 bytes).map fun (temp : UInt8 × List UInt8) =>
    ({ e with srcPort := (temp.1 >>> 4).toUInt16, dstPort := (temp.1 &&& 0xf).toUInt16 }, temp.2)

def deserialize (bytes : List UInt8) : Option (SixLowPanUdpNhcExtension × List UInt8) :=
  (readU8 bytes).bind fun base => (deserializePorts { baseFormat := base.1 } base.2).bind fun r =>
    if r.1.getC then some r
    else (readLe16 r.2).map fun checksum => ({ r.1 with checksum := UInt16.ofNat checksum.1 }, checksum.2)

end SixLowPanUdpNhcExtension

/-! ## The device -/

def choosePorts (src dst : UInt16) : Ports :=
  if src >>> 4 = 0xf0b ∧ dst >>> 4 = 0xf0b then .lastSrcLastDst
  else if src >>> 8 = 0xf0 ∧ dst >>> 8 ≠ 0xf0 then .lastSrcAllDst
  else if src >>> 8 ≠ 0xf0 ∧ dst >>> 8 = 0xf0 then .allSrcLastDst
  else .inline

def compressLowPanUdpNhc (omitChecksum : Bool) (packet : List UInt8) : Option (List UInt8 × ℕ) :=
  (UdpHeader.deserialize { } packet).map fun (udpHeader, rest) =>
    let udpNhcHeader := { ({ } : SixLowPanUdpNhcExtension).setC false with checksum := udpHeader.checksum }
    let udpNhcHeader := if omitChecksum && udpHeader.goodChecksum then udpNhcHeader.setC true else udpNhcHeader
    let udpNhcHeader := { udpNhcHeader with srcPort := udpHeader.sourcePort, dstPort := udpHeader.destinationPort }
    ((udpNhcHeader.setPorts (choosePorts udpHeader.sourcePort udpHeader.destinationPort)).serialize ++ rest, 8)

def rebuild8 (port : UInt16) : UInt16 :=
  let temp : UInt16 := 0xf0
  temp ||| ((temp <<< 8) ||| port)

def rebuild4 (port : UInt16) : UInt16 :=
  let temp : UInt16 := 0xf0b
  temp ||| ((temp <<< 4) ||| port)

def SixLowPanUdpNhcExtension.rebuildPorts (encoding : SixLowPanUdpNhcExtension) : UInt16 × UInt16 :=
  match encoding.getPorts with
  | .inline => (encoding.srcPort, encoding.dstPort)
  | .allSrcLastDst => (encoding.srcPort, rebuild8 encoding.dstPort)
  | .lastSrcAllDst => (rebuild8 encoding.srcPort, encoding.dstPort)
  | .lastSrcLastDst => (rebuild4 encoding.srcPort, rebuild4 encoding.dstPort)

/-- `DecompressLowPanUdpNhc`, with `Node::ChecksumEnabled`. -/
def decompressLowPanUdpNhc (checksumEnabled : Bool) (packet : List UInt8) (saddr daddr : Ipv6Address) : Option (List UInt8) :=
  (SixLowPanUdpNhcExtension.deserialize packet).bind fun (encoding, rest) =>
    let udpHeader : UdpHeader := { sourcePort := encoding.rebuildPorts.1, destinationPort := encoding.rebuildPorts.2 }
    if checksumEnabled then
      if encoding.getC then (udpHeader.enableChecksums.initializeChecksum saddr daddr 17).serialize rest
      else (udpHeader.forceChecksum encoding.checksum).serialize rest
    else udpHeader.serialize rest

/-! ## Ports -/

section Ports

variable {port src dst : UInt16}

theorem toNat_shiftRight8 (port : UInt16) : (port >>> 8).toNat = port.toNat / 256 := Nat.shiftRight_eq_div_pow port.toNat 8

theorem toNat_shiftRight4 (port : UInt16) : (port >>> 4).toNat = port.toNat / 16 := Nat.shiftRight_eq_div_pow port.toNat 4

theorem toNat_lastByte (port : UInt16) : (port &&& 0xff).toUInt8.toUInt16.toNat = port.toNat % 256 := by
  rw [UInt8.toNat_toUInt16, UInt16.toNat_toUInt8, UInt16.toNat_and]
  show (port.toNat &&& 2 ^ 8 - 1) % 2 ^ 8 = _
  rw [Nat.and_two_pow_sub_one_eq_mod, Nat.mod_mod]

theorem toNat_rebuild8 (port : UInt16) : (rebuild8 port).toNat = 0xf0f0 ||| port.toNat := by
  rw [rebuild8, ← UInt16.or_assoc, UInt16.toNat_or]
  rfl

theorem toNat_rebuild4 (port : UInt16) : (rebuild4 port).toNat = 0xffbb ||| port.toNat := by
  rw [rebuild4, ← UInt16.or_assoc, UInt16.toNat_or]
  rfl

/-- **A port of the range `0xf0`** comes back from its last byte only when it is one of the last sixteen. -/
theorem rebuild8_iff (h : port >>> 8 = 0xf0) : rebuild8 (port &&& 0xff).toUInt8.toUInt16 = port ↔ port >>> 4 = 0xf0f := by
  have hlow : ∀ t < 16, 0xf0f0 ||| (0xf0 + t) = 0xf0f0 + t := by decide
  have hhigh : port.toNat / 256 = 0xf0 := (toNat_shiftRight8 port).symm.trans (congrArg UInt16.toNat h)
  rw [← UInt16.toNat_inj, ← UInt16.toNat_inj, toNat_rebuild8, toNat_lastByte, toNat_shiftRight4]
  show _ ↔ port.toNat / 16 = 0xf0f
  constructor
  · intro heq
    have hle : 0xf0f0 ≤ 0xf0f0 ||| port.toNat % 256 := Nat.left_le_or
    omega
  · intro hquot
    have hmod : port.toNat % 256 = 0xf0 + port.toNat % 16 := by omega
    rw [hmod, hlow _ (Nat.mod_lt _ (by decide))]
    omega

theorem rebuild4_ne (h : port >>> 4 = 0xf0b) (x : UInt16) : rebuild4 x ≠ port := by
  intro heq
  have hhigh : port.toNat / 16 = 0xf0b := (toNat_shiftRight4 port).symm.trans (congrArg UInt16.toNat h)
  have hle : 0xffbb ≤ 0xffbb ||| x.toNat := Nat.left_le_or
  rw [← toNat_rebuild4, heq] at hle
  omega

def PortsKept (src dst : UInt16) : Prop :=
  ¬ (src >>> 4 = 0xf0b ∧ dst >>> 4 = 0xf0b) ∧ (src >>> 8 = 0xf0 → dst >>> 8 ≠ 0xf0 → src >>> 4 = 0xf0f) ∧
    (dst >>> 8 = 0xf0 → src >>> 8 ≠ 0xf0 → dst >>> 4 = 0xf0f)

end Ports

/-! ## Written and read -/

namespace SixLowPanUdpNhcExtension

variable (e : SixLowPanUdpNhcExtension)

def readPorts : UInt16 × UInt16 :=
  match e.getPorts with
  | .inline => (e.srcPort, e.dstPort)
  | .allSrcLastDst => (e.srcPort, (e.dstPort &&& 0xff).toUInt8.toUInt16)
  | .lastSrcAllDst => ((e.srcPort &&& 0xff).toUInt8.toUInt16, e.dstPort)
  | .lastSrcLastDst =>
    let temp := (((e.srcPort &&& 0xf) <<< 4) ||| (e.dstPort &&& 0xf)).toUInt8
    ((temp >>> 4).toUInt16, (temp &&& 0xf).toUInt16)

def asRead : SixLowPanUdpNhcExtension :=
  { e with checksum := if e.getC then 0 else e.checksum, srcPort := e.readPorts.1, dstPort := e.readPorts.2 }

@[simp] theorem getPorts_asRead : e.asRead.getPorts = e.getPorts := rfl

@[simp] theorem getC_asRead : e.asRead.getC = e.getC := rfl

/-- **A header that is written and read.** -/
theorem deserialize_serialize (rest : List UInt8) : deserialize (e.serialize ++ rest) = some (e.asRead, rest) := by
  have hsrc := e.srcPort.toNat_lt
  have hdst := e.dstPort.toNat_lt
  have hsum := e.checksum.toNat_lt
  rw [serialize, List.cons_append, deserialize, readU8, Option.bind_some, List.append_assoc]
  have hports : deserializePorts { baseFormat := e.baseFormat } (e.serializePorts ++ ((if e.getC then [] else le16 e.checksum.toNat) ++ rest)) =
      some ({ e.asRead with checksum := 0 }, (if e.getC then [] else le16 e.checksum.toNat) ++ rest) := by
    generalize (if e.getC then [] else le16 e.checksum.toNat) ++ rest = tail
    have hget : getPorts { baseFormat := e.baseFormat } = e.getPorts := rfl
    rw [deserializePorts, serializePorts, asRead, readPorts, hget]
    cases e.getPorts with
    | inline =>
      dsimp only
      rw [List.append_assoc, readBe16_be16 hsrc, Option.bind_some, readBe16_be16 hdst, Option.map_some, UInt16.ofNat_toNat,
        UInt16.ofNat_toNat]
    | allSrcLastDst =>
      dsimp only
      rw [List.append_assoc, readBe16_be16 hsrc, Option.bind_some, UInt16.ofNat_toNat]
      rfl
    | lastSrcAllDst =>
      dsimp only
      rw [List.cons_append, readU8, Option.bind_some, readBe16_be16 hdst, Option.map_some, UInt16.ofNat_toNat]
    | lastSrcLastDst => rfl
  have hread : getC { e.asRead with checksum := 0 } = e.getC := rfl
  rw [hports, Option.bind_some, hread, asRead]
  cases e.getC with
  | true => rfl
  | false =>
    rw [if_neg Bool.false_ne_true, if_neg Bool.false_ne_true, if_neg Bool.false_ne_true, readLe16_le16 hsum, Option.map_some,
      UInt16.ofNat_toNat]

/-- **The ports** that are put together of what is read. -/
theorem rebuildPorts_iff (h : e.getPorts = choosePorts e.srcPort e.dstPort) :
    e.asRead.rebuildPorts = (e.srcPort, e.dstPort) ↔ PortsKept e.srcPort e.dstPort := by
  rw [rebuildPorts, getPorts_asRead, asRead, readPorts, h, choosePorts]
  by_cases h4 : e.srcPort >>> 4 = 0xf0b ∧ e.dstPort >>> 4 = 0xf0b
  · rw [if_pos h4]
    exact iff_of_false (fun heq => rebuild4_ne h4.1 _ (congrArg Prod.fst heq)) fun hkept => hkept.1 h4
  · rw [if_neg h4]
    by_cases hsrc : e.srcPort >>> 8 = 0xf0 ∧ e.dstPort >>> 8 ≠ 0xf0
    · rw [if_pos hsrc]
      dsimp only
      rw [Prod.mk_left_inj, rebuild8_iff hsrc.1]
      exact ⟨fun hlast => ⟨h4, fun _ _ => hlast, fun hdst => absurd hdst hsrc.2⟩, fun hkept => hkept.2.1 hsrc.1 hsrc.2⟩
    · rw [if_neg hsrc]
      by_cases hdst : e.srcPort >>> 8 ≠ 0xf0 ∧ e.dstPort >>> 8 = 0xf0
      · rw [if_pos hdst]
        dsimp only
        rw [Prod.mk_right_inj, rebuild8_iff hdst.2]
        exact ⟨fun hlast => ⟨h4, fun hsrc => absurd hsrc hdst.1, fun _ _ => hlast⟩, fun hkept => hkept.2.2 hdst.2 hdst.1⟩
      · rw [if_neg hdst]
        exact iff_of_true rfl ⟨h4, fun h h' => absurd ⟨h, h'⟩ hsrc, fun h h' => absurd ⟨h', h⟩ hdst⟩

end SixLowPanUdpNhcExtension

/-! ## There and back -/

section RoundTrip

variable {d : UdpDatagram}

def baseFormat (omitChecksum : Bool) : UInt8 :=
  if omitChecksum then ((({ } : SixLowPanUdpNhcExtension).setC false).setC true).baseFormat
  else (({ } : SixLowPanUdpNhcExtension).setC false).baseFormat

def encoding (omitChecksum : Bool) (d : UdpDatagram) : SixLowPanUdpNhcExtension :=
  { baseFormat := baseFormat omitChecksum ||| (choosePorts d.sourcePort d.destinationPort).code
    checksum := d.checksum
    srcPort := d.sourcePort
    dstPort := d.destinationPort }

theorem getC_encoding (omitChecksum : Bool) (d : UdpDatagram) : (encoding omitChecksum d).getC = omitChecksum := by
  have hbits : ∀ (c : Bool) (p : Ports), decide ((baseFormat c ||| p.code) >>> 2 &&& 0x1 ≠ 0) = c := by
    intro c p
    cases c <;> cases p <;> decide
  exact hbits omitChecksum _

theorem getPorts_encoding (omitChecksum : Bool) (d : UdpDatagram) :
    (encoding omitChecksum d).getPorts = choosePorts d.sourcePort d.destinationPort := by
  have hbits : ∀ (c : Bool) (p : Ports), Ports.ofCode ((baseFormat c ||| p.code) &&& 0x3) = p := by
    intro c p
    cases c <;> cases p <;> decide
  exact hbits omitChecksum _

theorem compress_bytes (omitChecksum : Bool) (d : UdpDatagram) :
    compressLowPanUdpNhc omitChecksum d.bytes = some ((encoding omitChecksum d).serialize ++ d.payload, 8) := by
  rw [compressLowPanUdpNhc, d.deserialize_bytes, if_neg (by decide), Option.map_some]
  cases omitChecksum <;> rfl

theorem ports_of_serialize {h : UdpHeader} {payload : List UInt8} (heq : h.serialize payload = some d.bytes) :
    (h.sourcePort, h.destinationPort) = (d.sourcePort, d.destinationPort) := by
  have htake : d.bytes.take 4 = be16 h.sourcePort.toNat ++ be16 h.destinationPort.toNat := by
    rw [UdpHeader.serialize] at heq
    split_ifs at heq
    · obtain ⟨c, -, hc⟩ := Option.map_eq_some_iff.mp heq
      rw [← hc]
      rfl
    · rw [← Option.some.inj heq]
      rfl
  have htake' : d.bytes.take 4 = be16 d.sourcePort.toNat ++ be16 d.destinationPort.toNat := rfl
  have hread := congrArg readBe16 (htake.symm.trans htake')
  rw [readBe16_be16 h.sourcePort.toNat_lt, readBe16_be16 d.sourcePort.toNat_lt, Option.some.injEq, Prod.mk.injEq] at hread
  have hread' := congrArg readBe16 hread.2
  rw [← List.append_nil (be16 h.destinationPort.toNat), ← List.append_nil (be16 d.destinationPort.toNat),
    readBe16_be16 h.destinationPort.toNat_lt, readBe16_be16 d.destinationPort.toNat_lt, Option.some.injEq, Prod.mk.injEq] at hread'
  rw [UInt16.toNat_inj.mp hread.1, UInt16.toNat_inj.mp hread'.1]

theorem withChecksum_bytes_iff (c : UInt16) : (d.withChecksum c).bytes = d.bytes ↔ c = d.checksum := by
  constructor
  · intro heq
    have hdrop : (d.withChecksum c).bytes.drop 6 = le16 c.toNat ++ d.payload := rfl
    have hdrop' : d.bytes.drop 6 = le16 d.checksum.toNat ++ d.payload := rfl
    rw [heq, hdrop'] at hdrop
    have hread := congrArg readLe16 hdrop
    rw [readLe16_le16 c.toNat_lt, readLe16_le16 d.checksum.toNat_lt, Option.some.injEq, Prod.mk.injEq] at hread
    exact UInt16.toNat_inj.mp hread.1.symm
  · rintro rfl
    rfl

theorem serialize_forced (d : UdpDatagram) :
    (UdpHeader.forceChecksum { sourcePort := d.sourcePort, destinationPort := d.destinationPort } d.checksum).serialize d.payload =
      some d.bytes := by
  have hmod : (d.payload.length + 8) % 2 ^ 16 = d.payload.length + 8 := Nat.mod_eq_of_lt d.fits
  have hforced : ∀ c : UInt16, ¬ (decide (c = 0) && false) = true := fun c => by rw [Bool.and_false]; exact Bool.false_ne_true
  rw [UdpHeader.serialize, UdpHeader.forceChecksum, if_neg (hforced d.checksum), UdpHeader.write, if_pos rfl, hmod]
  rfl

/-- **The datagrams that come back** have other ports than those that are shortened to four bits, or to eight bits outside the last
sixteen of their range, and have a checksum other than all ones when it is left out. -/
theorem decompress_compress_iff (d : UdpDatagram) (saddr daddr : Ipv6Address) (hok : d.ChecksumOk saddr daddr) (omitChecksum : Bool) :
    ((compressLowPanUdpNhc omitChecksum d.bytes).bind fun r => decompressLowPanUdpNhc true r.1 saddr daddr) = some d.bytes ↔
      PortsKept d.sourcePort d.destinationPort ∧ ¬ (omitChecksum = true ∧ d.checksum = 0xffff) := by
  have hports := (encoding omitChecksum d).rebuildPorts_iff (getPorts_encoding omitChecksum d)
  rw [compress_bytes, Option.bind_some, decompressLowPanUdpNhc, SixLowPanUdpNhcExtension.deserialize_serialize, Option.bind_some]
  dsimp only
  rw [if_pos rfl, SixLowPanUdpNhcExtension.getC_asRead, getC_encoding]
  by_cases hkept : PortsKept d.sourcePort d.destinationPort
  · have hrebuild : (encoding omitChecksum d).asRead.rebuildPorts = (d.sourcePort, d.destinationPort) := hports.mpr hkept
    rw [hrebuild]
    cases omitChecksum with
    | true =>
      rw [if_pos rfl]
      refine (Eq.congr_left (d.serialize_datagram hok)).trans ?_
      rw [Option.some.injEq, withChecksum_bytes_iff]
      constructor
      · intro heq
        refine ⟨hkept, fun hones => ?_⟩
        rw [if_pos hones.2, hones.2] at heq
        exact absurd heq (by decide)
      · rintro ⟨-, hones⟩
        exact if_neg fun h => hones ⟨rfl, h⟩
    | false =>
      rw [if_neg Bool.false_ne_true]
      have hchecksum : (encoding false d).asRead.checksum = d.checksum := by
        rw [SixLowPanUdpNhcExtension.asRead, getC_encoding]
        rfl
      rw [hchecksum]
      exact iff_of_true (serialize_forced d) ⟨hkept, fun h => Bool.false_ne_true h.1⟩
  · refine iff_of_false (fun heq => hkept (hports.mp ?_)) fun h => hkept h.1
    split_ifs at heq <;> exact ports_of_serialize heq

/-- A datagram without payload, between ports whose range keeps the constant of the decompressor. -/
def datagramF0f1 : UdpDatagram := ⟨0xf0f1, 0x1234, 0xb8fc, [], by decide⟩

theorem checksumOk_datagramF0f1 : datagramF0f1.ChecksumOk Ipv6Address.zeros Ipv6Address.zeros :=
  (UdpDatagram.checksumOk_iff_sum _ _ _).mpr (by decide)

theorem decompress_compress_iff_f0f1 :
    ((compressLowPanUdpNhc true datagramF0f1.bytes).bind fun r =>
      decompressLowPanUdpNhc true r.1 Ipv6Address.zeros Ipv6Address.zeros) = some datagramF0f1.bytes :=
  (decompress_compress_iff datagramF0f1 _ _ checksumOk_datagramF0f1 true).mpr
    ⟨⟨by decide, fun _ _ => by decide, fun h => absurd h (by decide)⟩, by decide⟩

/-- A datagram without payload, between ports that are shortened to four bits. -/
def datagramF0b1 : UdpDatagram := ⟨0xf0b1, 0xf0b2, 0x7a1e, [], by decide⟩

theorem checksumOk_datagramF0b1 : datagramF0b1.ChecksumOk Ipv6Address.zeros Ipv6Address.zeros :=
  (UdpDatagram.checksumOk_iff_sum _ _ _).mpr (by decide)

/-- **Not every datagram comes back.** -/
theorem not_decompress_compress :
    ¬ ∀ (d : UdpDatagram) (saddr daddr : Ipv6Address), d.ChecksumOk saddr daddr → ∀ omitChecksum : Bool,
      ((compressLowPanUdpNhc omitChecksum d.bytes).bind fun r => decompressLowPanUdpNhc true r.1 saddr daddr) = some d.bytes := by
  intro h
  have hback := h datagramF0b1 _ _ checksumOk_datagramF0b1 false
  have hfirst : ((compressLowPanUdpNhc false datagramF0b1.bytes).bind fun r =>
      decompressLowPanUdpNhc true r.1 Ipv6Address.zeros Ipv6Address.zeros) =
        some [0xff, 0xbb, 0xff, 0xbb, 0x00, 0x08, 0x1e, 0x7a] := by decide
  rw [hfirst] at hback
  exact absurd (Option.some.inj hback) (by decide)

end RoundTrip

end Ns3Ndn.Sixlowpan
