import Ns3Ndn.Internet.Ipv6Header
import Ns3Ndn.Network.IpChecksum

/-!
# UDP headers

`internet/model/udp-header.cc`, between IPv6 addresses. The checksum is made of a pseudo header, whose checksum is the start of
the other one, and of the whole packet.

* **`checksumOk_iff_sum`**: what a correct checksum is;
* **`serialize_datagram`**: a header that computes its checksum gives the one that a good datagram has, or zero in place of all ones.
-/

namespace Ns3Ndn.Internet

open BytesLib OnesLib Network

/-- The fields after the constructor. `m_source` and `m_destination` are IPv6 addresses. -/
structure UdpHeader where
  sourcePort : UInt16 := 0xfffd
  destinationPort : UInt16 := 0xfffd
  payloadSize : UInt16 := 0
  checksum : UInt16 := 0
  source : Ipv6Address := Ipv6Address.zeros
  destination : Ipv6Address := Ipv6Address.zeros
  protocol : UInt8 := 0
  calcChecksum : Bool := false
  goodChecksum : Bool := true

namespace UdpHeader

variable (h : UdpHeader)

def enableChecksums : UdpHeader := { h with calcChecksum := true }

def initializeChecksum (source destination : Ipv6Address) (protocol : UInt8) : UdpHeader :=
  { h with source := source, destination := destination, protocol := protocol }

def forceChecksum (checksum : UInt16) : UdpHeader := { h with checksum := checksum }

/-- What `CalculateHeaderChecksum` writes. -/
def pseudoHeader (size : UInt16) : List UInt8 :=
  h.source.toList ++ h.destination.toList ++ ([0, 0, (size >>> 8).toUInt8, (size &&& 0xff).toUInt8, 0, 0, 0, h.protocol] : List UInt8)

def calculateHeaderChecksum (size : UInt16) : Option UInt16 :=
  (calculateIpChecksum 40 0 (h.pseudoHeader size)).map fun checksum => ~~~ checksum

def calculateChecksum (packet : List UInt8) : Option UInt16 :=
  (h.calculateHeaderChecksum (UInt16.ofNat packet.length)).bind fun headerChecksum =>
    calculateIpChecksum (packet.length % 2 ^ 16) headerChecksum.toUInt32 packet

/-- What is written before the checksum is computed. -/
def write (payload : List UInt8) : List UInt8 :=
  be16 h.sourcePort.toNat ++ be16 h.destinationPort.toNat ++
    be16 (if h.payloadSize = 0 then (payload.length + 8) % 2 ^ 16 else h.payloadSize.toNat) ++ le16 h.checksum.toNat ++ payload

def serialize (payload : List UInt8) : Option (List UInt8) :=
  if h.checksum = 0 && h.calcChecksum then
    (h.calculateChecksum (h.write payload)).map fun checksum => writeU16 (h.write payload) 6 checksum
  else some (h.write payload)

def deserialize (packet : List UInt8) : Option (UdpHeader × List UInt8) :=
  (readBe16 packet).bind fun src => (readBe16 src.2).bind fun dst => (readBe16 dst.2).bind fun length =>
  (readLe16 length.2).bind fun checksum =>
    let read := { h with
      sourcePort := UInt16.ofNat src.1
      destinationPort := UInt16.ofNat dst.1
      payloadSize := UInt16.ofNat length.1 - 8
      checksum := UInt16.ofNat checksum.1 }
    if h.calcChecksum then
      (read.calculateChecksum packet).map fun (c : UInt16) => ({ read with goodChecksum := c == 0 }, checksum.2)
    else some (read, checksum.2)

end UdpHeader

/-- A datagram, whose length counts its header and its payload. -/
structure UdpDatagram where
  sourcePort : UInt16
  destinationPort : UInt16
  checksum : UInt16
  payload : List UInt8
  fits : payload.length + 8 < 2 ^ 16

namespace UdpDatagram

variable (d : UdpDatagram)

def bytes : List UInt8 :=
  be16 d.sourcePort.toNat ++ be16 d.destinationPort.toNat ++ be16 (d.payload.length + 8) ++ le16 d.checksum.toNat ++ d.payload

def withChecksum (checksum : UInt16) : UdpDatagram := { d with checksum := checksum }

def receiver (saddr daddr : Ipv6Address) : UdpHeader := ({ } : UdpHeader).enableChecksums.initializeChecksum saddr daddr 17

def ChecksumOk (saddr daddr : Ipv6Address) : Prop :=
  ∃ r, (receiver saddr daddr).deserialize d.bytes = some r ∧ r.1.goodChecksum = true

end UdpDatagram

/-! ## Checksums -/

section Checksums

variable {d : UdpDatagram} {h : UdpHeader} {saddr daddr : Ipv6Address} {packet : List UInt8} {headerChecksum : UInt16}

theorem UdpHeader.exists_headerChecksum (h : UdpHeader) (size : UInt16) :
    ∃ c, h.calculateHeaderChecksum size = some c ∧ c.toNat = rep 0xffff (leWords (h.pseudoHeader size)).sum := by
  have hlength : (h.pseudoHeader size).length = 40 := by
    rw [UdpHeader.pseudoHeader, List.length_append, List.length_append, Vector.length_toList, Vector.length_toList]
    rfl
  have hlt := sum_leWords_lt (show (h.pseudoHeader size).length ≤ 65535 by omega)
  obtain ⟨c, hc, hc'⟩ := @calculateIpChecksum_eq (h.pseudoHeader size) 0 (by rw [UInt32.toNat_zero]; omega) []
  rw [List.append_nil, hlength] at hc
  rw [UInt32.toNat_zero, Nat.zero_add] at hc'
  have hle := rep_le (by decide : 0 < 0xffff) (leWords (h.pseudoHeader size)).sum
  have hsize : UInt16.size = 2 ^ 16 := rfl
  refine ⟨~~~ c, by rw [UdpHeader.calculateHeaderChecksum, hc]; rfl, ?_⟩
  rw [UInt16.toNat_not, hc', hsize]
  omega

theorem UdpHeader.calculateChecksum_eq (h : UdpHeader) (hlength : packet.length < 2 ^ 16)
    (hhead : h.calculateHeaderChecksum (UInt16.ofNat packet.length) = some headerChecksum) :
    ∃ c, h.calculateChecksum packet = some c ∧ c.toNat = 0xffff - rep 0xffff (headerChecksum.toNat + (leWords packet).sum) := by
  have hlt := sum_leWords_lt (show packet.length ≤ 65535 by omega)
  have hhead' := headerChecksum.toNat_lt
  obtain ⟨c, hc, hc'⟩ := @calculateIpChecksum_eq packet headerChecksum.toUInt32 (by rw [UInt16.toNat_toUInt32]; omega) []
  rw [List.append_nil] at hc
  rw [UInt16.toNat_toUInt32] at hc'
  exact ⟨c, by rw [UdpHeader.calculateChecksum, hhead, Option.bind_some, Nat.mod_eq_of_lt hlength, hc], hc'⟩

namespace UdpDatagram

@[simp] theorem length_bytes (d : UdpDatagram) : d.bytes.length = d.payload.length + 8 := by
  rw [bytes, List.length_append, Nat.add_comm]
  rfl

theorem writeU16_bytes (d : UdpDatagram) (checksum : UInt16) :
    writeU16 (d.withChecksum 0).bytes 6 checksum = (d.withChecksum checksum).bytes := by
  have hlow : (checksum &&& 0xff).toUInt8 = UInt8.ofNat checksum.toNat := by
    rw [← UInt8.toNat_inj, UInt16.toNat_toUInt8, UInt16.toNat_and, UInt8.toNat_ofNat']
    show (checksum.toNat &&& 2 ^ 8 - 1) % 2 ^ 8 = _
    rw [Nat.and_two_pow_sub_one_eq_mod, Nat.mod_mod]
  have hhigh : ((checksum >>> 8) &&& 0xff).toUInt8 = UInt8.ofNat (checksum.toNat >>> 8) := by
    rw [← UInt8.toNat_inj, UInt16.toNat_toUInt8, UInt16.toNat_and, UInt16.toNat_shiftRight, UInt8.toNat_ofNat']
    show (checksum.toNat >>> 8 &&& 2 ^ 8 - 1) % 2 ^ 8 = _
    rw [Nat.and_two_pow_sub_one_eq_mod, Nat.mod_mod]
  rw [writeU16, hlow, hhigh]
  rfl

theorem sum_leWords_bytes (d : UdpDatagram) :
    (leWords d.bytes).sum = (leWords (d.withChecksum 0).bytes).sum + d.checksum.toNat :=
  (congrArg (fun bytes => (leWords bytes).sum) (d.writeU16_bytes d.checksum)).symm.trans
    (sum_leWords_writeU16 (by decide) rfl (congrArg some (by decide : UInt8.ofNat ((0 : UInt16).toNat >>> 8) = 0)) d.checksum)

theorem sum_leWords_bytes_ne_zero (d : UdpDatagram) : (leWords d.bytes).sum ≠ 0 := by
  have hfits := d.fits
  have hlow : (UInt8.ofNat (d.payload.length + 8)).toNat = (d.payload.length + 8) % 2 ^ 8 := UInt8.toNat_ofNat'
  have hhigh : (UInt8.ofNat ((d.payload.length + 8) >>> 8)).toNat = (d.payload.length + 8) / 2 ^ 8 % 2 ^ 8 := by
    rw [UInt8.toNat_ofNat', Nat.shiftRight_eq_div_pow]
  intro hzero
  rw [bytes, be16, be16, be16] at hzero
  simp only [List.cons_append, List.nil_append, leWords, List.sum_cons] at hzero
  have hlow' : (d.payload.length + 8) % 2 ^ 8 = 0 := by omega
  have hhigh' : (d.payload.length + 8) / 2 ^ 8 % 2 ^ 8 = 0 := by omega
  omega

def header (d : UdpDatagram) (h : UdpHeader) : UdpHeader :=
  { h with
    sourcePort := d.sourcePort
    destinationPort := d.destinationPort
    payloadSize := UInt16.ofNat (d.payload.length + 8) - 8
    checksum := d.checksum }

theorem deserialize_bytes (d : UdpDatagram) (h : UdpHeader) :
    h.deserialize d.bytes =
      if h.calcChecksum then
        ((d.header h).calculateChecksum d.bytes).map fun c => ({ d.header h with goodChecksum := c == 0 }, d.payload)
      else some (d.header h, d.payload) := by
  have hsrc := d.sourcePort.toNat_lt
  have hdst := d.destinationPort.toNat_lt
  have hsum := d.checksum.toNat_lt
  have hfirst : readBe16 d.bytes = some (d.sourcePort.toNat, be16 d.destinationPort.toNat ++
      (be16 (d.payload.length + 8) ++ (le16 d.checksum.toNat ++ d.payload))) := readBe16_be16 hsrc _
  rw [UdpHeader.deserialize, hfirst, Option.bind_some, readBe16_be16 hdst, Option.bind_some, readBe16_be16 d.fits,
    Option.bind_some, readLe16_le16 hsum, Option.bind_some, UInt16.ofNat_toNat, UInt16.ofNat_toNat, UInt16.ofNat_toNat]
  rfl

theorem checksumOk_iff (hhead : (receiver saddr daddr).calculateHeaderChecksum (UInt16.ofNat d.bytes.length) = some headerChecksum) :
    d.ChecksumOk saddr daddr ↔ rep 0xffff (headerChecksum.toNat + (leWords d.bytes).sum) = 0xffff := by
  have hfits := d.fits
  have hle := rep_le (by decide : 0 < 0xffff) (headerChecksum.toNat + (leWords d.bytes).sum)
  obtain ⟨c, hc, hc'⟩ := (d.header (receiver saddr daddr)).calculateChecksum_eq (by rw [length_bytes]; omega) hhead
  have hread := d.deserialize_bytes (receiver saddr daddr)
  rw [if_pos (by rfl), hc, Option.map_some] at hread
  have hgood : c = 0 ↔ rep 0xffff (headerChecksum.toNat + (leWords d.bytes).sum) = 0xffff := by
    rw [← UInt16.toNat_inj, hc', UInt16.toNat_zero]
    omega
  rw [ChecksumOk, hread, ← hgood]
  constructor
  · rintro ⟨r, hr, hgood⟩
    obtain rfl := Option.some.inj hr
    exact beq_iff_eq.mp hgood
  · rintro rfl
    exact ⟨_, rfl, rfl⟩

/-- **The checksum is correct** when the pseudo header and the datagram sum up to all ones. -/
theorem checksumOk_iff_sum (d : UdpDatagram) (saddr daddr : Ipv6Address) :
    d.ChecksumOk saddr daddr ↔ rep 0xffff ((leWords ((receiver saddr daddr).pseudoHeader (UInt16.ofNat d.bytes.length))).sum +
      (leWords d.bytes).sum) = 0xffff := by
  obtain ⟨headerChecksum, hhead, hhead'⟩ := (receiver saddr daddr).exists_headerChecksum (UInt16.ofNat d.bytes.length)
  rw [checksumOk_iff hhead, hhead', rep_rep_add]

/-- **A header that computes its checksum** gives the datagram, with zero in place of a checksum of all ones. -/
theorem serialize_datagram (hok : d.ChecksumOk saddr daddr) :
    ({ receiver saddr daddr with sourcePort := d.sourcePort, destinationPort := d.destinationPort } : UdpHeader).serialize d.payload =
      some (d.withChecksum (if d.checksum = 0xffff then 0 else d.checksum)).bytes := by
  have hfits := d.fits
  have hmod : (d.payload.length + 8) % 2 ^ 16 = d.payload.length + 8 := Nat.mod_eq_of_lt hfits
  have hwrite : ({ receiver saddr daddr with sourcePort := d.sourcePort, destinationPort := d.destinationPort } : UdpHeader).write
      d.payload = (d.withChecksum 0).bytes := by
    rw [UdpHeader.write, if_pos (by rfl), hmod]
    rfl
  obtain ⟨headerChecksum, hhead, -⟩ := (receiver saddr daddr).exists_headerChecksum (UInt16.ofNat d.bytes.length)
  have hlength : (d.withChecksum 0).bytes.length < 2 ^ 16 := by rw [length_bytes]; exact hfits
  obtain ⟨c, hc, hc'⟩ := UdpHeader.calculateChecksum_eq
    { receiver saddr daddr with sourcePort := d.sourcePort, destinationPort := d.destinationPort } hlength hhead
  have hne := (d.withChecksum 0).sum_leWords_bytes_ne_zero
  rw [checksumOk_iff hhead, sum_leWords_bytes, ← Nat.add_assoc, ← rep_rep_add] at hok
  have hle := rep_le (by decide : 0 < 0xffff) (headerChecksum.toNat + (leWords (d.withChecksum 0).bytes).sum)
  have hpos : rep 0xffff (headerChecksum.toNat + (leWords (d.withChecksum 0).bytes).sum) ≠ 0 := mt rep_eq_zero.mp (by omega)
  generalize rep 0xffff (headerChecksum.toNat + (leWords (d.withChecksum 0).bytes).sum) = r at *
  have hlt := d.checksum.toNat_lt
  -- the sum and the checksum are all ones, once or twice
  have hsum : r + d.checksum.toNat = 0xffff ∨ r + d.checksum.toNat = 2 * 0xffff := by
    rw [rep] at hok
    split_ifs at hok
    omega
  have heq : c = if d.checksum = 0xffff then 0 else d.checksum := by
    have hones : d.checksum = 0xffff ↔ d.checksum.toNat = 0xffff := by rw [← UInt16.toNat_inj]; rfl
    split_ifs with hall
    · rw [hones] at hall
      rw [← UInt16.toNat_inj, hc', UInt16.toNat_zero]
      omega
    · rw [hones] at hall
      rw [← UInt16.toNat_inj, hc']
      omega
  rw [UdpHeader.serialize, if_pos (by rfl), hwrite, hc, Option.map_some, writeU16_bytes, heq]

end UdpDatagram

end Checksums

end Ns3Ndn.Internet
