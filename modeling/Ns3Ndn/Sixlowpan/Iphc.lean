import Ns3Ndn.Sixlowpan.IphcHeader

/-!
# Compressing IPv6 headers

`sixlowpan/model/sixlowpan-net-device.cc`, `CompressLowPanIphc` and `DecompressLowPanIphc`. An address is compressed by a context whose
prefix it has, or without one, by its form.
-/

namespace Ns3Ndn.Sixlowpan

open BytesLib BitFieldLib Internet

/-- The compression of the next header, `CompressLowPanUdpNhc`, `CompressLowPanNhc` and of an IPv6 header in the packet. -/
structure Nhc where
  /-- `none` if the next header was not compressed. -/
  compress : UInt8 → List UInt8 → Option (List UInt8)
  /-- The next header and the packet, or `none` for a problem. -/
  decompress : List UInt8 → Ipv6Address → Ipv6Address → Option (UInt8 × List UInt8)

/-- Why a packet is not decompressed: it is dropped, or the simulation ends. -/
inductive Failure where
  | dropped
  | aborted
  deriving DecidableEq, Repr

/-! ## Contexts -/

structure ContextEntry where
  contextPrefix : Ipv6Prefix
  compressionAllowed : Bool
  validLifetime : ℕ
  deriving DecidableEq

abbrev ContextTable := List (UInt8 × ContextEntry)

namespace ContextTable

variable (table : ContextTable) (now : ℕ)

/-- `FindUnicastCompressionContext`. -/
def findUnicastCompressionContext (address : Ipv6Address) : Option (UInt8 × ContextEntry) :=
  table.find? fun c => c.2.compressionAllowed && decide (now < c.2.validLifetime) && address.hasPrefix c.2.contextPrefix

/-- `FindMulticastCompressionContext`: the form `ffXX:XXLL:PPPP:PPPP:PPPP:PPPP:XXXX:XXXX`. -/
def findMulticastCompressionContext (address : Ipv6Address) : Option (UInt8 × ContextEntry) :=
  table.find? fun c => c.2.compressionAllowed && decide (now < c.2.validLifetime) && decide (c.2.contextPrefix.length ≤ 64) &&
    decide (address[3].toNat = c.2.contextPrefix.length) && decide (slice address 4 8 = slice c.2.contextPrefix.bytes 0 8)

def valid? (id : UInt8) : Option ContextEntry := (table.lookup id).filter fun c => !decide (c.validLifetime < now)

end ContextTable

/-- `CleanPrefix`. The mask keeps as many of the low bits of a byte as the prefix has of the high ones. -/
def cleanPrefix (address : Ipv6Address) (pref : Ipv6Prefix) : Ipv6Address :=
  address.mapIdx fun i b =>
    if i < pref.length / 8 then 0
    else if i = pref.length / 8 ∧ pref.length % 8 ≠ 0 then b &&& UInt8.ofNat (1 <<< (pref.length % 8) - 1) else b

def overlayPrefix (pref : Ipv6Prefix) (address : Ipv6Address) : Ipv6Address :=
  address.mapIdx fun i b =>
    if i < pref.length / 8 then pref.bytes.toList.getD i 0
    else if i = pref.length / 8 ∧ pref.length % 8 ≠ 0 then
      (pref.bytes.toList.getD i 0 &&& ~~~UInt8.ofNat (1 <<< (8 - pref.length % 8) - 1)) |||
        (b &&& UInt8.ofNat (1 <<< (8 - pref.length % 8) - 1))
    else b

/-! ## Compression -/

namespace SixLowPanIphc

variable (asserts : Bool) (h : SixLowPanIphc)

def setEcn (ecn : UInt8) : Option SixLowPanIphc := if asserts ∧ ¬ ecn < 4 then none else some { h with ecn := ecn }

def setDscp (dscp : UInt8) : Option SixLowPanIphc := if asserts ∧ ¬ dscp < 64 then none else some { h with dscp := dscp }

def setFlowLabel (flowLabel : ℕ) : Option SixLowPanIphc :=
  if asserts ∧ ¬ flowLabel < 0x100000 then none else some { h with flowLabel := flowLabel }

end SixLowPanIphc

def canCompressLowPanNhc (nextHeader : UInt8) : Bool :=
  nextHeader = 17 ∨ nextHeader = 0 ∨ nextHeader = 43 ∨ nextHeader = 44 ∨ nextHeader = 41

/-- The field for the traffic class and the flow label. -/
def compressTf (asserts : Bool) (ip : Ipv6Header) (h : SixLowPanIphc) : Option SixLowPanIphc :=
  if ip.flowLabel = 0 ∧ ip.trafficClass = 0 then some (h.setTf .elided)
  else if ip.flowLabel ≠ 0 ∧ ip.trafficClass ≠ 0 then
    ((h.setTf .full).setEcn asserts ((ip.trafficClass &&& 0xC0) >>> 6)).bind fun h =>
      (h.setDscp asserts (ip.trafficClass &&& 0x3F)).bind fun h => h.setFlowLabel asserts ip.flowLabel
  else if ip.flowLabel = 0 ∧ ip.trafficClass ≠ 0 then
    ((h.setTf .flElided).setEcn asserts ((ip.trafficClass &&& 0xC0) >>> 6)).bind fun h =>
      h.setDscp asserts (ip.trafficClass &&& 0x3F)
  else
    ((h.setTf .dscpElided).setEcn asserts ((ip.trafficClass &&& 0xC0) >>> 6)).bind fun h => h.setFlowLabel asserts ip.flowLabel

def compressNh (nhc : Nhc) (nextHeader : UInt8) (h : SixLowPanIphc) (packet : List UInt8) : SixLowPanIphc × List UInt8 :=
  if canCompressLowPanNhc nextHeader then
    match nhc.compress nextHeader packet with
    | some packet => (h.setNh true, packet)
    | none => ({ h.setNh false with nextHeader := nextHeader }, packet)
  else ({ h.setNh false with nextHeader := nextHeader }, packet)

def compressHlim (hopLimit : UInt8) (h : SixLowPanIphc) : SixLowPanIphc :=
  if hopLimit = 1 then h.setHlim .compr1
  else if hopLimit = 0x40 then h.setHlim .compr64
  else if hopLimit = 0xFF then h.setHlim .compr255
  else { h.setHlim .inline with hopLimit := hopLimit }

/-- `fe80:0000:0000:0000:0000:00ff:fe00:1`. -/
def unicastAddrChecker : Ipv6Address := memcpy (memcpy Ipv6Address.linkLocalPrefix 11 [0xff, 0xfe]) 14 [0, 1]

/-- `ff02::1`. -/
def multicastAddrChecker : Ipv6Address := memcpy (memcpy Ipv6Address.zeros 0 [0xff, 0x02]) 15 [1]

def isShortIid (address : Ipv6Address) : Bool := slice address 8 6 = [0x00, 0x00, 0x00, 0xff, 0xfe, 0x00]

/-- The address `::` is compressed as a stateful one that needs no context. -/
def compressSrc (table : ContextTable) (now : ℕ) (src : LinkAddress) (srcAddr : Ipv6Address) (h : SixLowPanIphc) : SixLowPanIphc :=
  if srcAddr = Ipv6Address.zeros then (h.setSam .inline).setSac true
  else match table.findUnicastCompressionContext now srcAddr with
    | some (id, context) =>
      let h := h.setSac true
      let h := if id ≠ 0 then (h.setSrcContextId id).setCid true else h
      if Ipv6Address.makeAutoconfiguredAddress src context.contextPrefix.bytes = srcAddr then h.setSam .compr0
      else
        let cleaned := cleanPrefix srcAddr context.contextPrefix
        if isShortIid cleaned then (h.setSam .compr16).setSrcInlinePart (slice cleaned 14 2)
        else (h.setSam .compr64).setSrcInlinePart (slice cleaned 8 8)
    | none =>
      if srcAddr = Ipv6Address.makeAutoconfiguredLinkLocalAddress src then h.setSam .compr0
      else if Ipv6Address.samePrefix srcAddr unicastAddrChecker 0 14 then (h.setSrcInlinePart (slice srcAddr 14 2)).setSam .compr16
      else if srcAddr.isLinkLocal then (h.setSrcInlinePart (slice srcAddr 8 8)).setSam .compr64
      else (h.setSrcInlinePart (slice srcAddr 0 16)).setSam .inline

def compressUnicastDst (table : ContextTable) (now : ℕ) (dst : LinkAddress) (dstAddr : Ipv6Address) (h : SixLowPanIphc) : SixLowPanIphc :=
  match table.findUnicastCompressionContext now dstAddr with
  | some (id, context) =>
    let h := h.setDac true
    let h := if id ≠ 0 then (h.setDstContextId id).setCid true else h
    if Ipv6Address.makeAutoconfiguredAddress dst context.contextPrefix.bytes = dstAddr then h.setDam .compr0
    else
      let cleaned := cleanPrefix dstAddr context.contextPrefix
      if isShortIid cleaned then (h.setDam .compr16).setDstInlinePart (slice cleaned 14 2)
      else (h.setDam .compr64).setDstInlinePart (slice cleaned 8 8)
  | none =>
    if dstAddr = Ipv6Address.makeAutoconfiguredLinkLocalAddress dst then h.setDam .compr0
    else if Ipv6Address.samePrefix dstAddr unicastAddrChecker 0 14 then (h.setDstInlinePart (slice dstAddr 14 2)).setDam .compr16
    else if dstAddr.isLinkLocal then (h.setDstInlinePart (slice dstAddr 8 8)).setDam .compr64
    else (h.setDstInlinePart (slice dstAddr 0 16)).setDam .inline

/-- Without a context, the forms are `ff02::00XX`, `ffXX::00XX:XXXX` and `ffXX::00XX:XXXX:XXXX`. -/
def compressMulticastDst (table : ContextTable) (now : ℕ) (dstAddr : Ipv6Address) (h : SixLowPanIphc) : SixLowPanIphc :=
  match table.findMulticastCompressionContext now dstAddr with
  | some (id, _) =>
    let h := h.setDac true
    let h := if id ≠ 0 then (h.setDstContextId id).setCid true else h
    (h.setDstInlinePart (slice dstAddr 1 2 ++ slice dstAddr 12 4)).setDam .inline
  | none =>
    if Ipv6Address.samePrefix dstAddr multicastAddrChecker 0 15 then (h.setDstInlinePart (slice dstAddr 15 1)).setDam .compr0
    else if dstAddr[0]? = multicastAddrChecker[0]? ∧ Ipv6Address.samePrefix dstAddr multicastAddrChecker 2 11 then
      (h.setDstInlinePart (slice dstAddr 1 1 ++ slice dstAddr 13 3)).setDam .compr16
    else if dstAddr[0]? = multicastAddrChecker[0]? ∧ Ipv6Address.samePrefix dstAddr multicastAddrChecker 2 9 then
      (h.setDstInlinePart (slice dstAddr 1 1 ++ slice dstAddr 11 5)).setDam .compr64
    else (h.setDstInlinePart (slice dstAddr 0 16)).setDam .inline

def compressDst (table : ContextTable) (now : ℕ) (dst : LinkAddress) (dstAddr : Ipv6Address) (h : SixLowPanIphc) : SixLowPanIphc :=
  if !h.getM then compressUnicastDst table now dst dstAddr h else compressMulticastDst table now dstAddr h

def compressAddresses (table : ContextTable) (now : ℕ) (src dst : LinkAddress) (ip : Ipv6Header) (h : SixLowPanIphc) : SixLowPanIphc :=
  let h := compressHlim ip.hopLimit h
  let h := ((h.setCid false).setSac false).setDac false
  let h := compressSrc table now src ip.sourceAddress h
  compressDst table now dst ip.destinationAddress (h.setM ip.destinationAddress.isMulticast)

def compressHeader (asserts : Bool) (nhc : Nhc) (table : ContextTable) (now : ℕ) (raw : SixLowPanIphc) (src dst : LinkAddress)
    (ip : Ipv6Header) (packet : List UInt8) : Option (SixLowPanIphc × List UInt8) :=
  (compressTf asserts ip raw.init).map fun h =>
    let r := compressNh nhc ip.nextHeader h packet
    (compressAddresses table now src dst ip r.1, r.2)

/-- `CompressLowPanIphc`, with what is in memory. A packet without an IPv6 header is left as it is. -/
def compressLowPanIphc (asserts : Bool) (nhc : Nhc) (table : ContextTable) (now : ℕ) (raw : SixLowPanIphc) (src dst : LinkAddress)
    (packet : List UInt8) : Option (List UInt8) :=
  match Ipv6Header.deserialize packet with
  | some (ip, packet) => (compressHeader asserts nhc table now raw src dst ip packet).bind fun r => r.1.addHeader r.2
  | none => some packet

/-! ## Decompression -/

def decompressStateful (link : LinkAddress) (pref : Ipv6Prefix) (mode : HeaderCompression) (part : Vector UInt8 16) : Ipv6Address :=
  overlayPrefix pref (match mode with
    | .compr64 => memcpy Ipv6Address.zeros 8 (slice part 0 8)
    | .compr16 => memcpy (memcpy Ipv6Address.zeros 11 [0xff, 0xfe]) 14 (slice part 0 2)
    | _ => Ipv6Address.makeAutoconfiguredLinkLocalAddress link)

def decompressStateless (link : LinkAddress) (mode : HeaderCompression) (part : Vector UInt8 16) : Ipv6Address :=
  match mode with
  | .inline => memcpy Ipv6Address.zeros 0 (slice part 0 16)
  | .compr64 => memcpy (memcpy Ipv6Address.zeros 8 (slice part 0 8)) 0 [0xfe, 0x80]
  | .compr16 => memcpy (memcpy (memcpy Ipv6Address.zeros 14 (slice part 0 2)) 0 [0xfe, 0x80]) 11 [0xff, 0xfe]
  | .compr0 => Ipv6Address.makeAutoconfiguredLinkLocalAddress link

def decompressGroup (mode : HeaderCompression) (part : Vector UInt8 16) : Ipv6Address :=
  match mode with
  | .inline => memcpy Ipv6Address.zeros 0 (slice part 0 16)
  | .compr64 => memcpy (memcpy (memcpy Ipv6Address.zeros 0 [0xff]) 1 (slice part 0 1)) 11 (slice part 1 5)
  | .compr16 => memcpy (memcpy (memcpy Ipv6Address.zeros 0 [0xff]) 1 (slice part 0 1)) 13 (slice part 1 3)
  | .compr0 => memcpy (memcpy Ipv6Address.zeros 0 [0xff, 0x02]) 15 (slice part 0 1)

/-- The only stateful address of a group, `ffXX:XXLL:PPPP:PPPP:PPPP:PPPP:XXXX:XXXX`. -/
def decompressStatefulGroup (pref : Ipv6Prefix) (part : Vector UInt8 16) : Ipv6Address :=
  memcpy (memcpy (memcpy (memcpy (memcpy Ipv6Address.zeros 0 [0xff]) 1 (slice part 0 2)) 3 [UInt8.ofNat pref.length]) 4
    (slice pref.bytes 0 8)) 12 (slice part 2 4)

/-- A packet of an unknown context, or of one that has expired, is dropped. -/
def decompressSrc (table : ContextTable) (now : ℕ) (src : LinkAddress) (encoding : SixLowPanIphc) : Except Failure Ipv6Address :=
  if encoding.getSac then
    if encoding.getSam = .inline then .ok Ipv6Address.zeros
    else match table.valid? now encoding.getSrcContextId with
      | some context => .ok (decompressStateful src context.contextPrefix encoding.getSam encoding.srcInlinePart)
      | none => .error .dropped
  else .ok (decompressStateless src encoding.getSam encoding.srcInlinePart)

/-- Some of the codes are reserved. -/
def decompressDst (table : ContextTable) (now : ℕ) (dst : LinkAddress) (encoding : SixLowPanIphc) : Except Failure Ipv6Address :=
  if encoding.getDac then
    if encoding.getDam = .inline ∧ encoding.getM = false ∨ encoding.getDam ≠ .inline ∧ encoding.getM then .error .aborted
    else match table.valid? now encoding.getDstContextId with
      | some context =>
        if encoding.getM = false then
          .ok (decompressStateful dst context.contextPrefix encoding.getDam encoding.dstInlinePart)
        else .ok (decompressStatefulGroup context.contextPrefix encoding.dstInlinePart)
      | none => .error .dropped
  else if encoding.getM = false then .ok (decompressStateless dst encoding.getDam encoding.dstInlinePart)
  else .ok (decompressGroup encoding.getDam encoding.dstInlinePart)

def decompressAddresses (table : ContextTable) (now : ℕ) (src dst : LinkAddress) (encoding : SixLowPanIphc) :
    Except Failure (Ipv6Address × Ipv6Address) :=
  (decompressSrc table now src encoding).bind fun source => (decompressDst table now dst encoding).map fun destination =>
    (source, destination)

/-- The traffic class and the flow label. -/
def decompressTf (encoding : SixLowPanIphc) : UInt8 × ℕ :=
  match encoding.getTf with
  | .full => (encoding.ecn <<< 6 ||| encoding.dscp, encoding.flowLabel &&& 0xfff)
  | .dscpElided => (encoding.ecn <<< 2, encoding.flowLabel)
  | .flElided => (encoding.ecn <<< 6 ||| encoding.dscp, 0)
  | .elided => (0, 0)

def decompressNh (nhc : Nhc) (encoding : SixLowPanIphc) (source destination : Ipv6Address) (packet : List UInt8) :
    Except Failure (UInt8 × List UInt8) :=
  if encoding.getNh then
    match nhc.decompress packet source destination with
    | some r => .ok r
    | none => .error .dropped
  else .ok (encoding.nextHeader, packet)

def decompressLowPanIphc (nhc : Nhc) (table : ContextTable) (now : ℕ) (raw : SixLowPanIphc) (src dst : LinkAddress)
    (packet : List UInt8) : Except Failure (List UInt8) :=
  match raw.removeHeader packet with
  | some (encoding, packet) => (decompressAddresses table now src dst encoding).bind fun addresses =>
    (decompressNh nhc encoding addresses.1 addresses.2 packet).map fun next =>
      Ipv6Header.serialize
        { trafficClass := (decompressTf encoding).1
          flowLabel := (decompressTf encoding).2
          payloadLength := next.2.length % 2 ^ 16
          nextHeader := next.1
          hopLimit := encoding.hopLimit
          sourceAddress := addresses.1
          destinationAddress := addresses.2 } ++ next.2
  | none => .error .aborted

end Ns3Ndn.Sixlowpan
