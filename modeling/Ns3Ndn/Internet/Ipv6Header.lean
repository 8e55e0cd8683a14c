import Ns3Ndn.Lib.Bytes

/-!
# IPv6 headers

`network/utils/ipv6-address.cc` and `internet/model/ipv6-header.cc`: addresses, those that a node makes from its link-layer address, and the
fixed header.

* `Ipv6Address`, `makeAutoconfiguredLinkLocalAddress`, `Ipv6Header`: the code;
* **`deserialize_serialize`**: a header that is read has the fields of the one that was written, but not its flow label.
-/

namespace Ns3Ndn.Internet

open BytesLib

/-! ## Addresses -/

abbrev Ipv6Address := Vector UInt8 16

/-- `Address`, of one of the types from which an interface identifier can be made. -/
inductive LinkAddress where
  | mac64 (bytes : Vector UInt8 8)
  | mac48 (bytes : Vector UInt8 6)
  | mac16 (bytes : Vector UInt8 2)
  | mac8 (byte : UInt8)
  deriving DecidableEq, Repr

namespace Ipv6Address

/-- A buffer after `memset`, and the address `::` of `GetAny`. -/
def zeros : Ipv6Address := Vector.replicate 16 0

/-- `memcmp` of the first bytes of two buffers. -/
def samePrefix (a b : Ipv6Address) (offset count : ℕ) : Bool := slice a offset count = slice b offset count

/-- `fe80::`. -/
def linkLocalPrefix : Ipv6Address := memcpy zeros 0 [0xfe, 0x80]

def makeAutoconfiguredAddress (addr : LinkAddress) (pref : Ipv6Address) : Ipv6Address :=
  match addr with
  | .mac64 bytes => memcpy pref 8 bytes.toList
  | .mac48 bytes =>
    let buf := memcpy (memcpy (memcpy pref 8 (slice bytes 0 3)) 11 [0xff, 0xfe]) 13 (slice bytes 3 3)
    memcpy buf 8 [buf[8] ^^^ 0x02]
  | .mac16 bytes => memcpy (memcpy (memcpy pref 8 (List.replicate 8 0)) 14 bytes.toList) 11 [0xff, 0xfe]
  | .mac8 byte => memcpy (memcpy (memcpy pref 8 (List.replicate 8 0)) 14 [0, byte]) 11 [0xff, 0xfe]

/-- `MakeAutoconfiguredLinkLocalAddress`. -/
def makeAutoconfiguredLinkLocalAddress : LinkAddress → Ipv6Address
  | .mac64 bytes => memcpy linkLocalPrefix 8 bytes.toList
  | .mac48 bytes =>
    let buf := memcpy (memcpy (memcpy linkLocalPrefix 8 (slice bytes 0 3)) 11 [0xff, 0xfe]) 13 (slice bytes 3 3)
    memcpy buf 8 [buf[8] ^^^ 0x02]
  | .mac16 bytes => memcpy (memcpy linkLocalPrefix 14 bytes.toList) 11 [0xff, 0xfe]
  | .mac8 byte => memcpy (memcpy linkLocalPrefix 14 [0, byte]) 11 [0xff, 0xfe]

variable (a : Ipv6Address)

def combinePrefix (pref : Ipv6Address) : Ipv6Address := a.mapIdx fun i b => b &&& pref.toList.getD i 0

def isLinkLocal : Bool := combinePrefix a (memcpy zeros 0 (List.replicate 8 0xff)) = linkLocalPrefix

def isMulticast : Bool := a[0] = 0xff

end Ipv6Address

structure Ipv6Prefix where
  bytes : Vector UInt8 16
  length : ℕ
  deriving DecidableEq

/-- `HasPrefix`. -/
def Ipv6Address.hasPrefix (a : Ipv6Address) (pref : Ipv6Prefix) : Bool :=
  combinePrefix a pref.bytes = combinePrefix (Vector.replicate 16 0xff) pref.bytes

namespace Ipv6Address

@[simp] theorem getElem_combinePrefix (a pref : Ipv6Address) {i : ℕ} (hi : i < 16) : (combinePrefix a pref)[i] = a[i] &&& pref[i] := by
  have hget : pref[i]? = some pref[i] := Vector.getElem?_eq_getElem hi
  simp [combinePrefix, hget]

theorem getElem_makeAutoconfiguredAddress (addr : LinkAddress) (pref : Ipv6Address) {i : ℕ} (hi : i < 16) :
    (makeAutoconfiguredAddress addr pref)[i] =
      if i < 8 then pref[i] else (makeAutoconfiguredLinkLocalAddress addr)[i] := by
  unfold makeAutoconfiguredAddress makeAutoconfiguredLinkLocalAddress
  cases addr with
  | mac64 bytes =>
    interval_cases i <;> simp [getElem_memcpy]
  | mac48 bytes =>
    have hslice : ∀ (offset i : ℕ), i < 3 → ∀ h : offset + i < 6, (slice bytes offset 3)[i]? = some bytes[offset + i] :=
      fun offset i hi h => getElem?_slice bytes hi h
    interval_cases i <;> simp [getElem_memcpy, hslice]
  | mac16 bytes =>
    interval_cases i <;> simp [getElem_memcpy, linkLocalPrefix, zeros]
  | mac8 byte =>
    interval_cases i <;> simp [getElem_memcpy, linkLocalPrefix, zeros]

theorem getElem_makeAutoconfiguredLinkLocalAddress (addr : LinkAddress) {i : ℕ} (hi : i < 8) :
    (makeAutoconfiguredLinkLocalAddress addr)[i] = linkLocalPrefix[i] := by
  cases addr with
  | mac64 bytes =>
    unfold makeAutoconfiguredLinkLocalAddress
    rw [getElem_memcpy, if_neg (by omega)]
  | mac48 bytes =>
    unfold makeAutoconfiguredLinkLocalAddress
    simp only [getElem_memcpy]
    rw [if_neg (by omega), if_neg (by omega), if_neg (by omega), if_neg (by omega)]
  | mac16 bytes =>
    unfold makeAutoconfiguredLinkLocalAddress
    simp only [getElem_memcpy]
    rw [if_neg (by omega), if_neg (by omega)]
  | mac8 byte =>
    unfold makeAutoconfiguredLinkLocalAddress
    simp only [getElem_memcpy]
    rw [if_neg (by omega), if_neg (by omega)]

end Ipv6Address

/-! ## The header -/

/-- The flow label is of type `uint32_t`, and the payload length of type `uint16_t`. -/
structure Ipv6Header where
  trafficClass : UInt8 := 0
  flowLabel : ℕ := 1
  payloadLength : ℕ := 0
  nextHeader : UInt8 := 0
  hopLimit : UInt8 := 0
  sourceAddress : Ipv6Address := Ipv6Address.zeros
  destinationAddress : Ipv6Address := Ipv6Address.zeros
  deriving DecidableEq

/-- `ReadFrom`. -/
def readAddress (bytes : List UInt8) : Option (Ipv6Address × List UInt8) :=
  (takeBytes 16 bytes).map fun r => (memcpy Ipv6Address.zeros 0 r.1, r.2)

namespace Ipv6Header

variable (h : Ipv6Header)

def vTcFl : ℕ := 6 <<< 28 ||| h.trafficClass.toNat <<< 20 ||| h.flowLabel

def serialize : List UInt8 :=
  be32 h.vTcFl ++ be16 h.payloadLength ++ [h.nextHeader, h.hopLimit] ++ h.sourceAddress.toList ++ h.destinationAddress.toList

def deserialize (bytes : List UInt8) : Option (Ipv6Header × List UInt8) :=
  (readBe32 bytes).bind fun v => if v.1 >>> 28 ≠ 6 then none else
    (readBe16 v.2).bind fun len => (readU8 len.2).bind fun next => (readU8 next.2).bind fun hop =>
    (readAddress hop.2).bind fun src => (readAddress src.2).map fun dst =>
      ({ trafficClass := UInt8.ofNat ((v.1 >>> 20) &&& 0x000000ff)
         flowLabel := v.1 &&& 0xfff00000
         payloadLength := len.1
         nextHeader := next.1
         hopLimit := hop.1
         sourceAddress := src.1
         destinationAddress := dst.1 }, dst.2)

/-! ## Written and read -/

def versionAndClass (trafficClass : UInt8) : ℕ := 6 * 2 ^ 28 + trafficClass.toNat * 2 ^ 20

def asRead : Ipv6Header := { h with flowLabel := versionAndClass h.trafficClass }

@[simp] theorem trafficClass_asRead : h.asRead.trafficClass = h.trafficClass := by
  rw [asRead]

@[simp] theorem sourceAddress_asRead : h.asRead.sourceAddress = h.sourceAddress := by
  rw [asRead]

@[simp] theorem destinationAddress_asRead : h.asRead.destinationAddress = h.destinationAddress := by
  rw [asRead]

@[simp] theorem nextHeader_asRead : h.asRead.nextHeader = h.nextHeader := by
  rw [asRead]

@[simp] theorem hopLimit_asRead : h.asRead.hopLimit = h.hopLimit := by
  rw [asRead]

@[simp] theorem flowLabel_asRead : h.asRead.flowLabel = versionAndClass h.asRead.trafficClass := by
  rw [trafficClass_asRead]
  rfl

/-- The fields have the widths of the format. -/
structure Fits : Prop where
  flowLabel : h.flowLabel < 2 ^ 20
  payloadLength : h.payloadLength < 2 ^ 16

section Fits

variable {h}

theorem vTcFl_eq (hf : h.Fits) : h.vTcFl = 6 * 2 ^ 28 + h.trafficClass.toNat * 2 ^ 20 + h.flowLabel := by
  have htc : h.trafficClass.toNat < 2 ^ 8 := h.trafficClass.toNat_lt
  have hclass : h.trafficClass.toNat <<< 20 < 2 ^ 28 := by
    rw [Nat.shiftLeft_eq]
    omega
  have hjoin : h.trafficClass.toNat <<< 20 ||| h.flowLabel = h.trafficClass.toNat <<< 20 + h.flowLabel :=
    (Nat.shiftLeft_add_eq_or_of_lt hf.flowLabel _).symm
  have hlow : h.trafficClass.toNat <<< 20 + h.flowLabel < 2 ^ 28 := by
    have := hf.flowLabel
    rw [Nat.shiftLeft_eq]
    omega
  unfold vTcFl
  rw [Nat.or_assoc, hjoin, ← Nat.shiftLeft_add_eq_or_of_lt hlow, Nat.shiftLeft_eq, Nat.shiftLeft_eq, Nat.add_assoc]

theorem vTcFl_lt (hf : h.Fits) : h.vTcFl < 2 ^ 32 := by
  have htc : h.trafficClass.toNat < 2 ^ 8 := h.trafficClass.toNat_lt
  have := hf.flowLabel
  rw [vTcFl_eq hf]
  omega

theorem and_fff00000 {v : ℕ} (hv : v < 2 ^ 32) : v &&& 0xfff00000 = v / 2 ^ 20 * 2 ^ 20 := by
  have hmask : 0xfff00000 = (2 ^ 12 - 1) <<< 20 := rfl
  rw [hmask, ← Nat.shiftLeft_eq, ← Nat.shiftRight_eq_div_pow]
  apply Nat.eq_of_testBit_eq
  intro i
  simp only [Nat.testBit_and, Nat.testBit_shiftLeft, Nat.testBit_two_pow_sub_one, Nat.testBit_shiftRight]
  by_cases hi : 20 ≤ i
  · obtain ⟨d, rfl⟩ := Nat.exists_eq_add_of_le hi
    simp only [ge_iff_le, Nat.le_add_right, decide_true, Bool.true_and, Nat.add_sub_cancel_left]
    by_cases hd : d < 12
    · simp [hd]
    · have hbig : v < 2 ^ (20 + d) := hv.trans_le (Nat.pow_le_pow_right (by decide) (by omega))
      simp [hd, Nat.testBit_lt_two_pow hbig]
  · simp [hi]

theorem readAddress_append (a : Ipv6Address) (rest : List UInt8) : readAddress (a.toList ++ rest) = some (a, rest) := by
  have hlen : a.toList.length = 16 := Vector.length_toList
  unfold readAddress
  rw [takeBytes_append hlen, Option.map_some]
  congr 2
  apply Vector.ext
  intro i hi
  have hget : a[i]? = some a[i] := Vector.getElem?_eq_getElem hi
  rw [getElem_memcpy, if_pos (Nat.zero_le i)]
  simp [hget]

/-- **A header that is written and read**: the fields are the same, but the flow label. -/
theorem deserialize_serialize (hf : h.Fits) (rest : List UInt8) : deserialize (h.serialize ++ rest) =
    some (h.asRead, rest) := by
  have htc : h.trafficClass.toNat < 2 ^ 8 := h.trafficClass.toNat_lt
  have hfl := hf.flowLabel
  have hversion : h.vTcFl >>> 28 = 6 := by
    rw [vTcFl_eq hf, Nat.shiftRight_eq_div_pow]
    omega
  have hclass : UInt8.ofNat ((h.vTcFl >>> 20) &&& 0x000000ff) = h.trafficClass := by
    have hval : (h.vTcFl >>> 20) &&& 0x000000ff = h.trafficClass.toNat := by
      rw [Nat.and_two_pow_sub_one_eq_mod _ 8, vTcFl_eq hf, Nat.shiftRight_eq_div_pow]
      omega
    rw [hval, UInt8.ofNat_toNat]
  have hflow : h.vTcFl &&& 0xfff00000 = versionAndClass h.trafficClass := by
    rw [and_fff00000 (vTcFl_lt hf), vTcFl_eq hf, versionAndClass]
    omega
  have hversion' : ¬ h.vTcFl >>> 28 ≠ 6 := not_not_intro hversion
  unfold deserialize serialize
  simp only [List.append_assoc]
  rw [readBe32_be32 (vTcFl_lt hf), Option.bind_some, if_neg hversion', readBe16_be16 hf.payloadLength, Option.bind_some]
  simp only [List.cons_append, List.nil_append, readU8, Option.bind_some]
  rw [readAddress_append, Option.bind_some, readAddress_append, Option.map_some, hclass, hflow, asRead]

theorem flowLabel_of_serialize_eq {g : Ipv6Header} (hf : h.Fits) (hg : g.Fits) (hclass : g.trafficClass = h.trafficClass)
    {rest rest' : List UInt8} (heq : g.serialize ++ rest = h.serialize ++ rest') : g.flowLabel = h.flowLabel := by
  have hread := congrArg (fun bytes => (readBe32 bytes).map Prod.fst) heq
  unfold serialize at hread
  simp only [List.append_assoc] at hread
  rw [readBe32_be32 (vTcFl_lt hg), readBe32_be32 (vTcFl_lt hf), Option.map_some, Option.map_some, Option.some_inj, vTcFl_eq hf,
    vTcFl_eq hg, hclass] at hread
  omega

end Fits

end Ipv6Header

end Ns3Ndn.Internet
