import Ns3Ndn.Lib.BitField
import Ns3Ndn.Lte.SequenceNumber10

/-!
# The header of LTE RLC AM

`lte/model/lte-rlc-am-header.cc`: the header of a data PDU has a length indicator of eleven bits for each data field but the last one, two
of them in three octets, and that of a status report has numbers of ten bits, two of them in 23 bits. The segment offset is written in two
octets, and its upper one is not shifted when it is read.

* `deserialize_of_data`, `deserialize_of_status`: what is read of a header that was written;
* **`headerRoundTrips_iff`**: the headers that come back.
-/

namespace Ns3Ndn.Lte

open BitFieldLib

/-- The length and the offsets are of type `uint16_t`, the flags of type `uint8_t`. -/
@[ext]
structure LteRlcAmHeader where
  headerLength : ℕ
  dataControlBit : ℕ
  resegmentationFlag : ℕ
  pollingBit : ℕ
  framingInfo : ℕ
  sequenceNumber : SequenceNumber10
  lastSegmentFlag : ℕ
  segmentOffset : ℕ
  lastOffset : ℕ
  extensionBits : List ℕ
  lengthIndicators : List ℕ
  controlPduType : ℕ
  ackSn : SequenceNumber10
  nackSnList : List ℕ

namespace LteRlcAmHeader

/-! ## The setters -/

/-- The constructor, which leaves the last segment flag as it is in memory. -/
def init (raw : ℕ) : LteRlcAmHeader where
  headerLength := 0
  dataControlBit := 0xff
  resegmentationFlag := 0xff
  pollingBit := 0xff
  framingInfo := 0xff
  sequenceNumber := .ofValue 0xfffa
  lastSegmentFlag := raw
  segmentOffset := 0xffff
  lastOffset := 0xffff
  extensionBits := []
  lengthIndicators := []
  controlPduType := 0xff
  ackSn := .ofValue 0xffff
  nackSnList := []

section Code

variable (h : LteRlcAmHeader)

def setDataPdu : LteRlcAmHeader := { h with headerLength := 4, dataControlBit := 1 }

def setControlPdu (controlPduType : ℕ) : LteRlcAmHeader := { h with headerLength := 2, dataControlBit := 0, controlPduType }

def setFramingInfo (framingInfo : ℕ) : LteRlcAmHeader := { h with framingInfo := framingInfo &&& 0x03 }

def setSequenceNumber (sequenceNumber : SequenceNumber10) : LteRlcAmHeader := { h with sequenceNumber }

def pushExtensionBit (extensionBit : ℕ) : LteRlcAmHeader :=
  let extensionBits := h.extensionBits ++ [extensionBit]
  { h with
    extensionBits
    headerLength :=
      if extensionBits.length > 1 then
        if extensionBits.length % 2 ≠ 0 then (h.headerLength + 1) % 65536 else (h.headerLength + 2) % 65536
      else h.headerLength }

def pushLengthIndicator (lengthIndicator : ℕ) : LteRlcAmHeader := { h with lengthIndicators := h.lengthIndicators ++ [lengthIndicator] }

def setResegmentationFlag (resegFlag : ℕ) : LteRlcAmHeader := { h with resegmentationFlag := resegFlag &&& 0x01 }

def setPollingBit (pollingBit : ℕ) : LteRlcAmHeader := { h with pollingBit := pollingBit &&& 0x01 }

def setLastSegmentFlag (lsf : ℕ) : LteRlcAmHeader := { h with lastSegmentFlag := lsf &&& 0x01 }

def setSegmentOffset (segmentOffset : ℕ) : LteRlcAmHeader := { h with segmentOffset := segmentOffset &&& 0x7FFF }

def setAckSn (ackSn : SequenceNumber10) : LteRlcAmHeader := { h with ackSn }

/-- Two numbers have three octets. -/
def pushNack (nack : ℕ) : LteRlcAmHeader :=
  let nackSnList := h.nackSnList ++ [nack]
  { h with
    nackSnList
    headerLength := if nackSnList.length % 2 = 0 then (h.headerLength + 1) % 65536 else (h.headerLength + 2) % 65536 }

def getSerializedSize : ℕ := h.headerLength

/-! ## Writing -/

def dataOctet (extensionBit : ℕ) : ℕ :=
  (1 <<< 7 &&& 0x80) ||| (h.resegmentationFlag <<< 6 &&& 0x40) ||| (h.pollingBit <<< 5 &&& 0x20) ||| (h.framingInfo <<< 3 &&& 0x18) |||
    (extensionBit <<< 2 &&& 0x04) ||| (h.sequenceNumber.value >>> 8 &&& 0x0003)

/-- The loop over the extension bits after the first one and the length indicators. -/
def serializeLis : List ℕ → List ℕ → List UInt8
  | oddE :: evenE :: es, oddLi :: evenLi :: lis =>
    .ofNat ((oddE <<< 7 &&& 0x80) ||| (oddLi >>> 4 &&& 0x007F)) ::
      .ofNat ((oddLi <<< 4 &&& 0x00F0) ||| (evenE <<< 3 &&& 0x08) ||| (evenLi >>> 8 &&& 0x0007)) ::
      .ofNat (evenLi &&& 0x00FF) :: serializeLis es lis
  | oddE :: _, oddLi :: _ => [.ofNat ((oddE <<< 7 &&& 0x80) ||| (oddLi >>> 4 &&& 0x007F)), .ofNat (oddLi <<< 4 &&& 0x00F0)]
  | _, _ => []

/-- The loop over the numbers. The highest bit of the first one is in the octet before. -/
def serializeNacks : ℕ → List ℕ → List UInt8
  | oddNack, [] => [.ofNat (oddNack >>> 1 &&& 0xFF), .ofNat (oddNack <<< 7 &&& 0x80)]
  | oddNack, [evenNack] =>
    [.ofNat (oddNack >>> 1 &&& 0xFF), .ofNat ((oddNack <<< 7 &&& 0x80) ||| 0x40 ||| (evenNack >>> 5 &&& 0x1F)), .ofNat (evenNack <<< 3 &&& 0xF8)]
  | oddNack, evenNack :: next :: rest =>
    .ofNat (oddNack >>> 1 &&& 0xFF) :: .ofNat ((oddNack <<< 7 &&& 0x80) ||| 0x40 ||| (evenNack >>> 5 &&& 0x1F)) ::
      .ofNat ((evenNack <<< 3 &&& 0xF8) ||| 0x04 ||| (next >>> 9 &&& 0x01)) :: serializeNacks next rest

/-- `Serialize`, where the first extension bit of a data PDU is read without a test. -/
def serialize : Option (List UInt8) :=
  if h.dataControlBit = 1 then h.extensionBits.head?.map fun extensionBit =>
    [.ofNat (h.dataOctet extensionBit), .ofNat (h.sequenceNumber.value &&& 0x00FF),
      .ofNat ((h.lastSegmentFlag <<< 7 &&& 0x80) ||| (h.segmentOffset >>> 8 &&& 0x007F)), .ofNat (h.segmentOffset &&& 0x00FF)] ++
      serializeLis h.extensionBits.tail h.lengthIndicators
  else
    some (.ofNat ((0 <<< 7 &&& 0x80) ||| (h.controlPduType <<< 4 &&& 0x70) ||| (h.ackSn.value >>> 6 &&& 0x0F)) ::
      match h.nackSnList with
      | [] => [.ofNat (h.ackSn.value <<< 2 &&& 0xFC)]
      | nack :: rest => .ofNat ((h.ackSn.value <<< 2 &&& 0xFC) ||| 0x02 ||| (nack >>> 9 &&& 0x01)) :: serializeNacks nack rest)

/-! ## Reading -/

def readLis (es lis : List ℕ) (octets : ℕ) : LteRlcAmHeader :=
  { h with
    extensionBits := h.extensionBits ++ es
    lengthIndicators := h.lengthIndicators ++ lis
    headerLength := (h.headerLength + octets) % 65536 }

def readNacks (nacks : List ℕ) (octets : ℕ) : LteRlcAmHeader :=
  { h with nackSnList := h.nackSnList ++ nacks, headerLength := (h.headerLength + octets) % 65536 }

/-- The loop over the length indicators. `E_LI_FIELDS_FOLLOWS` is 1. -/
def deserializeLis (h : LteRlcAmHeader) : List UInt8 → Option (LteRlcAmHeader × List UInt8)
  | byte1 :: byte2 :: bytes =>
    let oddE := (byte1.toNat &&& 0x80) >>> 7
    let h := h.readLis [oddE] [(byte1.toNat &&& 0x7F) <<< 4 ||| (byte2.toNat &&& 0xF0) >>> 4] 2
    if oddE = 1 then
      match bytes with
      | byte3 :: bytes =>
        let evenE := (byte2.toNat &&& 0x08) >>> 3
        let h := h.readLis [evenE] [(byte2.toNat &&& 0x07) <<< 8 ||| byte3.toNat &&& 0xFF] 1
        if evenE = 1 then deserializeLis h bytes else some (h, bytes)
      | [] => none
    else some (h, bytes)
  | _ => none

/-- The loop over the numbers, from the octet on with the highest bit of the next one. The first number does not count for the length, which
is set before. -/
def deserializeNacks (h : LteRlcAmHeader) (byte : ℕ) : List UInt8 → Option (LteRlcAmHeader × List UInt8)
  | nextByte :: finalByte :: bytes =>
    let h := h.readNacks [(byte &&& 0x01) <<< 9 ||| nextByte.toNat <<< 1 ||| (finalByte.toNat &&& 0x80) >>> 7] 0
    if (finalByte.toNat &&& 0x40) >>> 6 = 1 then
      match bytes with
      | nextByte :: bytes =>
        let h := h.readNacks [(finalByte.toNat &&& 0x1F) <<< 5 ||| (nextByte.toNat &&& 0xF8) >>> 3] 0
        if (nextByte.toNat &&& 0x04) >>> 2 = 1 then deserializeNacks (h.readNacks [] 3) nextByte.toNat bytes
        else some (h.readNacks [] 1, bytes)
      | [] => none
    else some (h, bytes)
  | _ => none

def deserializeFrom (size : ℕ) : List UInt8 → Option (LteRlcAmHeader × List UInt8)
  | byte1 :: byte2 :: bytes =>
    let h := { h with headerLength := 1, dataControlBit := (byte1.toNat &&& 0x80) >>> 7 }
    if h.dataControlBit = 1 then
      match bytes with
      | byte3 :: byte4 :: bytes =>
        let extensionBit := (byte1.toNat &&& 0x04) >>> 2
        let h := { h with
          headerLength := h.headerLength + 3
          resegmentationFlag := (byte1.toNat &&& 0x40) >>> 6
          pollingBit := (byte1.toNat &&& 0x20) >>> 5
          framingInfo := (byte1.toNat &&& 0x18) >>> 3
          sequenceNumber := h.sequenceNumber.assign ((byte1.toNat &&& 0x03) <<< 8 ||| byte2.toNat)
          lastSegmentFlag := (byte3.toNat &&& 0x80) >>> 7
          segmentOffset := (byte3.toNat &&& 0x7F) ||| byte4.toNat
          extensionBits := h.extensionBits ++ [extensionBit] }
        if extensionBit = 0 then some (h, bytes)
        else (h.deserializeLis bytes).map fun r =>
          (if r.1.resegmentationFlag = 1 then
            { r.1 with lastOffset := (r.1.segmentOffset + size + (65536 - r.1.headerLength)) % 65536 } else r.1, r.2)
      | _ => none
    else
      let h := { h with
        controlPduType := (byte1.toNat &&& 0x70) >>> 4
        ackSn := h.ackSn.assign ((byte1.toNat &&& 0x0F) <<< 6 ||| (byte2.toNat &&& 0xFC) >>> 2) }
      if (byte2.toNat &&& 0x02) >>> 1 = 1 then deserializeNacks { h with headerLength := 4 } byte2.toNat bytes
      else some ({ h with headerLength := h.headerLength + 1 }, bytes)
  | _ => none

def deserialize (bytes : List UInt8) : Option (LteRlcAmHeader × List UInt8) := h.deserializeFrom bytes.length bytes

end Code

/-! ## Octets -/

section Octets

variable {e li low sn n : ℕ}

theorem and_0x80 (n : ℕ) : n &&& 0x80 = n / 128 % 2 * 128 := and_shiftLeft_mask n 1 7

theorem and_0xF0 (n : ℕ) : n &&& 0xF0 = n / 16 % 16 * 16 := and_shiftLeft_mask n 4 4

theorem and_0x7F (n : ℕ) : n &&& 0x7F = n % 128 := Nat.and_two_pow_sub_one_eq_mod n 7

theorem and_0xFF (n : ℕ) : n &&& 0xFF = n % 256 := Nat.and_two_pow_sub_one_eq_mod n 8

theorem and_0x07 (n : ℕ) : n &&& 0x07 = n % 8 := Nat.and_two_pow_sub_one_eq_mod n 3

theorem and_0x08 (n : ℕ) : n &&& 0x08 = n / 8 % 2 * 8 := and_shiftLeft_mask n 1 3

theorem oddLi_octets (he : e < 2) (hli : li < 2048) (hlow : low < 16) :
    ((UInt8.ofNat ((e <<< 7 &&& 0x80) ||| (li >>> 4 &&& 0x7F))).toNat &&& 0x80) >>> 7 = e ∧
      ((UInt8.ofNat ((e <<< 7 &&& 0x80) ||| (li >>> 4 &&& 0x7F))).toNat &&& 0x7F) <<< 4 |||
        ((UInt8.ofNat ((li <<< 4 &&& 0xF0) ||| low)).toNat &&& 0xF0) >>> 4 = li := by
  simp only [UInt8.toNat_ofNat', and_0x80, and_0xF0, and_0x7F, Nat.shiftLeft_eq, Nat.shiftRight_eq_div_pow]
  rw [or_eq_add 7 (by omega) (by omega), or_eq_add 4 (by omega) hlow, or_eq_add 4 (by omega) (by omega)]
  omega

theorem lowBits_lt (e li : ℕ) : (e <<< 3 &&& 0x08) ||| (li >>> 8 &&& 0x07) < 16 := by
  simp only [and_0x07, and_0x08]
  rw [or_eq_add 3 (by omega) (by omega)]
  omega

theorem evenLi_octets (he : e < 2) (hli : li < 2048) :
    ((UInt8.ofNat ((n <<< 4 &&& 0xF0) ||| (e <<< 3 &&& 0x08) ||| (li >>> 8 &&& 0x07))).toNat &&& 0x08) >>> 3 = e ∧
      ((UInt8.ofNat ((n <<< 4 &&& 0xF0) ||| (e <<< 3 &&& 0x08) ||| (li >>> 8 &&& 0x07))).toNat &&& 0x07) <<< 8 |||
        ((UInt8.ofNat (li &&& 0xFF)).toNat &&& 0xFF) = li := by
  simp only [UInt8.toNat_ofNat', Nat.or_assoc, and_0xF0, and_0xFF, and_0x07, and_0x08, Nat.shiftLeft_eq, Nat.shiftRight_eq_div_pow]
  have hlow : e * 2 ^ 3 / 8 % 2 * 8 ||| li / 2 ^ 8 % 8 = e * 8 + li / 256 := by
    rw [or_eq_add 3 (by omega) (by omega)]
    omega
  rw [hlow, or_eq_add 4 (by omega) (by omega), or_eq_add 8 (by omega) (by omega)]
  omega

theorem and_0x1F (n : ℕ) : n &&& 0x1F = n % 32 := Nat.and_two_pow_sub_one_eq_mod n 5

theorem and_0x01 (n : ℕ) : n &&& 0x01 = n % 2 := Nat.and_two_pow_sub_one_eq_mod n 1

theorem and_0xF8 (n : ℕ) : n &&& 0xF8 = n / 8 % 32 * 8 := and_shiftLeft_mask n 5 3

theorem and_0xFC (n : ℕ) : n &&& 0xFC = n / 4 % 64 * 4 := and_shiftLeft_mask n 6 2

theorem oddNack_octets (hbyte : n % 2 = sn / 512) (hlow : low < 128) :
    (n &&& 0x01) <<< 9 ||| (UInt8.ofNat (sn >>> 1 &&& 0xFF)).toNat <<< 1 |||
      ((UInt8.ofNat ((sn <<< 7 &&& 0x80) ||| low)).toNat &&& 0x80) >>> 7 = sn := by
  simp only [UInt8.toNat_ofNat', Nat.or_assoc, and_0x01, and_0x80, and_0xFF, Nat.shiftLeft_eq, Nat.shiftRight_eq_div_pow]
  rw [or_eq_add 7 (by omega) hlow]
  have hrest : sn / 2 ^ 1 % 256 % 2 ^ 8 * 2 ^ 1 ||| (sn * 2 ^ 7 / 128 % 2 * 128 + low) % 2 ^ 8 / 128 % 2 * 128 / 2 ^ 7 = sn % 512 := by
    rw [or_eq_add 1 (by omega) (by omega)]
    omega
  rw [hrest, or_eq_add 9 (by omega) (by omega)]
  omega

theorem evenNack_octets (hbyte : n % 32 = sn / 32) (hlow : low < 8) :
    (n &&& 0x1F) <<< 5 ||| ((UInt8.ofNat ((sn <<< 3 &&& 0xF8) ||| low)).toNat &&& 0xF8) >>> 3 = sn := by
  simp only [UInt8.toNat_ofNat', and_0x1F, and_0xF8, Nat.shiftLeft_eq, Nat.shiftRight_eq_div_pow]
  rw [or_eq_add 3 (by omega) hlow, or_eq_add 5 (by omega) (by omega)]
  omega

theorem moreNacks_octet (sn : ℕ) (hsn : n < 1024) :
    ((UInt8.ofNat ((sn <<< 7 &&& 0x80) ||| 0x40 ||| (n >>> 5 &&& 0x1F))).toNat &&& 0x40) >>> 6 = 1 ∧
      (UInt8.ofNat ((sn <<< 7 &&& 0x80) ||| 0x40 ||| (n >>> 5 &&& 0x1F))).toNat % 32 = n / 32 := by
  have h40 : ∀ m, m &&& 0x40 = m / 64 % 2 * 64 := fun m => and_shiftLeft_mask m 1 6
  simp only [UInt8.toNat_ofNat', Nat.or_assoc, and_0x80, and_0x1F, h40, Nat.shiftLeft_eq, Nat.shiftRight_eq_div_pow]
  have hrest : 64 ||| n / 2 ^ 5 % 32 = 64 + n / 32 := by
    rw [or_eq_add 6 (by omega) (by omega)]
    omega
  rw [hrest, or_eq_add 7 (by omega) (by omega)]
  omega

theorem moreBits_lt (sn : ℕ) : 0x40 ||| (sn >>> 5 &&& 0x1F) < 128 := by
  rw [and_0x1F, or_eq_add 6 (by decide) (by omega)]
  omega

theorem nextBits_lt (sn : ℕ) : 0x04 ||| (sn >>> 9 &&& 0x01) < 8 := by
  rw [and_0x01, or_eq_add 2 (by decide) (by omega)]
  omega

theorem lastNack_octet (sn : ℕ) : ((UInt8.ofNat (sn <<< 7 &&& 0x80)).toNat &&& 0x40) >>> 6 ≠ 1 := by
  have h40 : ∀ m, m &&& 0x40 = m / 64 % 2 * 64 := fun m => and_shiftLeft_mask m 1 6
  simp only [UInt8.toNat_ofNat', and_0x80, h40, Nat.shiftLeft_eq, Nat.shiftRight_eq_div_pow]
  omega

theorem lastEven_octet (sn : ℕ) : ((UInt8.ofNat (sn <<< 3 &&& 0xF8)).toNat &&& 0x04) >>> 2 ≠ 1 := by
  have h04 : ∀ m, m &&& 0x04 = m / 4 % 2 * 4 := fun m => and_shiftLeft_mask m 1 2
  simp only [UInt8.toNat_ofNat', and_0xF8, h04, Nat.shiftLeft_eq, Nat.shiftRight_eq_div_pow]
  omega

theorem moreEven_octet (sn : ℕ) (hn : n < 1024) :
    ((UInt8.ofNat ((sn <<< 3 &&& 0xF8) ||| 0x04 ||| (n >>> 9 &&& 0x01))).toNat &&& 0x04) >>> 2 = 1 ∧
      (UInt8.ofNat ((sn <<< 3 &&& 0xF8) ||| 0x04 ||| (n >>> 9 &&& 0x01))).toNat % 2 = n / 512 := by
  have h04 : ∀ m, m &&& 0x04 = m / 4 % 2 * 4 := fun m => and_shiftLeft_mask m 1 2
  simp only [UInt8.toNat_ofNat', Nat.or_assoc, and_0xF8, and_0x01, h04, Nat.shiftLeft_eq, Nat.shiftRight_eq_div_pow]
  have hrest : 4 ||| n / 2 ^ 9 % 2 = 4 + n / 512 := by
    rw [or_eq_add 2 (by omega) (by omega)]
    omega
  rw [hrest, or_eq_add 3 (by omega) (by omega)]
  omega

/-- The first octet of a data PDU, with the two highest bits of the sequence number. -/
theorem dataOctet_fields : ∀ (rf p : Fin 2) (fi : Fin 4) (e : Fin 2) (s : Fin 4),
    let octet := (UInt8.ofNat ((1 <<< 7 &&& 0x80) ||| (rf.val <<< 6 &&& 0x40) ||| (p.val <<< 5 &&& 0x20) ||| (fi.val <<< 3 &&& 0x18) |||
      (e.val <<< 2 &&& 0x04) ||| s.val)).toNat
    (octet &&& 0x80) >>> 7 = 1 ∧ (octet &&& 0x40) >>> 6 = rf ∧ (octet &&& 0x20) >>> 5 = p ∧ (octet &&& 0x18) >>> 3 = fi ∧
      (octet &&& 0x04) >>> 2 = e ∧ (octet &&& 0x03) <<< 8 = s.val * 256 := by
  decide

theorem offset_octets (he : e < 2) (hn : n < 2 ^ 15) :
    ((UInt8.ofNat ((e <<< 7 &&& 0x80) ||| (n >>> 8 &&& 0x7F))).toNat &&& 0x80) >>> 7 = e ∧
      ((UInt8.ofNat ((e <<< 7 &&& 0x80) ||| (n >>> 8 &&& 0x7F))).toNat &&& 0x7F) = n / 256 ∧ (UInt8.ofNat (n &&& 0xFF)).toNat = n % 256 := by
  simp only [UInt8.toNat_ofNat', and_0x80, and_0x7F, and_0xFF, Nat.shiftLeft_eq, Nat.shiftRight_eq_div_pow]
  rw [or_eq_add 7 (by omega) (by omega)]
  omega

theorem status_octets (hsn : sn < 1024) (hlow : low < 4) :
    ((UInt8.ofNat ((0 <<< 7 &&& 0x80) ||| (0 <<< 4 &&& 0x70) ||| (sn >>> 6 &&& 0x0F))).toNat &&& 0x80) >>> 7 = 0 ∧
      ((UInt8.ofNat ((0 <<< 7 &&& 0x80) ||| (0 <<< 4 &&& 0x70) ||| (sn >>> 6 &&& 0x0F))).toNat &&& 0x70) >>> 4 = 0 ∧
      ((UInt8.ofNat ((0 <<< 7 &&& 0x80) ||| (0 <<< 4 &&& 0x70) ||| (sn >>> 6 &&& 0x0F))).toNat &&& 0x0F) <<< 6 |||
        ((UInt8.ofNat ((sn <<< 2 &&& 0xFC) ||| low)).toNat &&& 0xFC) >>> 2 = sn ∧
      ((UInt8.ofNat ((sn <<< 2 &&& 0xFC) ||| low)).toNat &&& 0x02) >>> 1 = low / 2 ∧
      (UInt8.ofNat ((sn <<< 2 &&& 0xFC) ||| low)).toNat % 2 = low % 2 := by
  have h70 : ∀ m, m &&& 0x70 = m / 16 % 8 * 16 := fun m => and_shiftLeft_mask m 3 4
  have h0F : ∀ m, m &&& 0x0F = m % 16 := fun m => Nat.and_two_pow_sub_one_eq_mod m 4
  have h02 : ∀ m, m &&& 0x02 = m / 2 % 2 * 2 := fun m => and_shiftLeft_mask m 1 1
  have hzero : (0 <<< 7 &&& 0x80) ||| (0 <<< 4 &&& 0x70) = 0 := by decide
  rw [hzero, Nat.zero_or]
  simp only [UInt8.toNat_ofNat', and_0x80, and_0xFC, h70, h0F, h02, Nat.shiftLeft_eq, Nat.shiftRight_eq_div_pow]
  rw [or_eq_add 2 (by omega) hlow, or_eq_add 6 (by omega) (by omega)]
  omega

theorem nackBits_lt (sn : ℕ) : 0x02 ||| (sn >>> 9 &&& 0x01) < 4 := by
  rw [and_0x01, or_eq_add 1 (by decide) (by omega)]
  omega

theorem nackBits_eq (hsn : sn < 1024) : (0x02 ||| (sn >>> 9 &&& 0x01)) / 2 = 1 ∧ (0x02 ||| (sn >>> 9 &&& 0x01)) % 2 = sn / 512 := by
  rw [and_0x01, or_eq_add 1 (by decide) (by omega), Nat.shiftRight_eq_div_pow]
  omega

end Octets

/-! ## The lists -/

/-- The extension bits after the first one: a further length indicator follows, or the data. -/
def matchingBits : List ℕ → List ℕ
  | [] => [0]
  | _ :: lis => 1 :: matchingBits lis

section Lists

variable {h : LteRlcAmHeader} {t : List UInt8}

theorem readLis_readLis (es es' lis lis' : List ℕ) (n n' : ℕ) :
    (h.readLis es lis n).readLis es' lis' n' = h.readLis (es ++ es') (lis ++ lis') (n + n') := by
  unfold readLis
  simp only [List.append_assoc, Nat.mod_add_mod, Nat.add_assoc]

theorem readNacks_readNacks (nacks nacks' : List ℕ) (n n' : ℕ) :
    (h.readNacks nacks n).readNacks nacks' n' = h.readNacks (nacks ++ nacks') (n + n') := by
  unfold readNacks
  simp only [List.append_assoc, Nat.mod_add_mod, Nat.add_assoc]

theorem deserializeLis_last {byte1 byte2 : UInt8} {e li : ℕ} (he : e ≠ 1) (hE : (byte1.toNat &&& 0x80) >>> 7 = e)
    (hLi : (byte1.toNat &&& 0x7F) <<< 4 ||| (byte2.toNat &&& 0xF0) >>> 4 = li) (bytes : List UInt8) :
    h.deserializeLis (byte1 :: byte2 :: bytes) = some (h.readLis [e] [li] 2, bytes) := by
  cases bytes with
  | nil => rw [deserializeLis, hE, hLi, if_neg he]
  | cons byte3 bytes => rw [deserializeLis, hE, hLi, if_neg he]

theorem deserializeLis_pair {byte1 byte2 byte3 : UInt8} {e li li' : ℕ} (hE : (byte1.toNat &&& 0x80) >>> 7 = 1)
    (hLi : (byte1.toNat &&& 0x7F) <<< 4 ||| (byte2.toNat &&& 0xF0) >>> 4 = li) (hE' : (byte2.toNat &&& 0x08) >>> 3 = e)
    (hLi' : (byte2.toNat &&& 0x07) <<< 8 ||| byte3.toNat &&& 0xFF = li') (bytes : List UInt8) :
    h.deserializeLis (byte1 :: byte2 :: byte3 :: bytes) =
      if e = 1 then (h.readLis [1, e] [li, li'] 3).deserializeLis bytes else some (h.readLis [1, e] [li, li'] 3, bytes) := by
  rw [deserializeLis, hE, hLi, if_pos rfl, hE', hLi']
  simp only [readLis_readLis, List.singleton_append]

/-- **The length indicators come back.** -/
theorem deserializeLis_serializeLis : ∀ (li : ℕ) (rest : List ℕ) {h : LteRlcAmHeader}, (∀ n ∈ li :: rest, n < 2048) →
    h.deserializeLis (serializeLis (matchingBits rest) (li :: rest) ++ t) =
      some (h.readLis (matchingBits rest) (li :: rest) (serializeLis (matchingBits rest) (li :: rest)).length, t)
  | li, [], h, hlis => by
    obtain ⟨he, hli⟩ := oddLi_octets (by decide : 0 < 2) (hlis li List.mem_cons_self) (by decide : 0 < 16)
    rw [Nat.or_zero] at hli
    exact deserializeLis_last (by decide) he hli t
  | li, [li'], h, hlis => by
    have hli' : li' < 2048 := hlis li' (List.mem_cons_of_mem _ List.mem_cons_self)
    obtain ⟨he, hli⟩ := oddLi_octets (by decide : 1 < 2) (hlis li List.mem_cons_self) (lowBits_lt 0 li')
    obtain ⟨he', heven⟩ := evenLi_octets (n := li) (by decide : 0 < 2) hli'
    rw [← Nat.or_assoc] at hli
    exact deserializeLis_pair he hli he' heven t
  | li, li' :: li'' :: rest, h, hlis => by
    have hli' : li' < 2048 := hlis li' (List.mem_cons_of_mem _ List.mem_cons_self)
    obtain ⟨he, hli⟩ := oddLi_octets (by decide : 1 < 2) (hlis li List.mem_cons_self) (lowBits_lt 1 li')
    obtain ⟨he', heven⟩ := evenLi_octets (n := li) (by decide : 1 < 2) hli'
    rw [← Nat.or_assoc] at hli
    have hrest : ∀ n ∈ li'' :: rest, n < 2048 := fun n hn => hlis n (List.mem_cons_of_mem _ (List.mem_cons_of_mem _ hn))
    have ih := deserializeLis_serializeLis li'' rest (h := h.readLis [1, 1] [li, li'] 3) hrest
    rw [readLis_readLis] at ih
    refine (deserializeLis_pair he hli he' heven _).trans ((if_pos rfl).trans (ih.trans ?_))
    rw [Nat.add_comm 3]
    rfl

theorem length_matchingBits (lis : List ℕ) : (matchingBits lis).length = lis.length + 1 := by
  induction lis with
  | nil => rfl
  | cons li lis ih => rw [matchingBits, List.length_cons, List.length_cons, ih]

theorem two_le_length_serializeNacks (sn : ℕ) (rest : List ℕ) : 2 ≤ (serializeNacks sn rest).length := by
  rcases rest with _ | ⟨_, _ | ⟨_, _⟩⟩ <;> simp [serializeNacks]

theorem deserializeNacks_last {byte sn : ℕ} {nextByte finalByte : UInt8}
    (hSn : (byte &&& 0x01) <<< 9 ||| nextByte.toNat <<< 1 ||| (finalByte.toNat &&& 0x80) >>> 7 = sn)
    (hmore : (finalByte.toNat &&& 0x40) >>> 6 ≠ 1) (bytes : List UInt8) :
    h.deserializeNacks byte (nextByte :: finalByte :: bytes) = some (h.readNacks [sn] 0, bytes) := by
  cases bytes with
  | nil => rw [deserializeNacks, hSn, if_neg hmore]
  | cons next bytes => rw [deserializeNacks, hSn, if_neg hmore]

theorem deserializeNacks_pair {byte sn sn' : ℕ} {nextByte finalByte byte' : UInt8}
    (hSn : (byte &&& 0x01) <<< 9 ||| nextByte.toNat <<< 1 ||| (finalByte.toNat &&& 0x80) >>> 7 = sn)
    (hmore : (finalByte.toNat &&& 0x40) >>> 6 = 1)
    (hSn' : (finalByte.toNat &&& 0x1F) <<< 5 ||| (byte'.toNat &&& 0xF8) >>> 3 = sn') (bytes : List UInt8) :
    h.deserializeNacks byte (nextByte :: finalByte :: byte' :: bytes) =
      if (byte'.toNat &&& 0x04) >>> 2 = 1 then (h.readNacks [sn, sn'] 3).deserializeNacks byte'.toNat bytes
      else some (h.readNacks [sn, sn'] 1, bytes) := by
  rw [deserializeNacks, hSn, if_pos hmore, hSn']
  simp only [readNacks_readNacks, List.singleton_append, List.append_nil, Nat.zero_add]

/-- **The numbers come back.** The length does not count the octets of the first one. -/
theorem deserializeNacks_serializeNacks : ∀ (sn : ℕ) (rest : List ℕ) {h : LteRlcAmHeader} {byte : ℕ}, (∀ n ∈ sn :: rest, n < 1024) →
    byte % 2 = sn / 512 → h.deserializeNacks byte (serializeNacks sn rest ++ t) =
      some (h.readNacks (sn :: rest) ((serializeNacks sn rest).length - 2), t)
  | sn, [], h, byte, _, hbyte => by
    have hsn := oddNack_octets hbyte (by decide : 0 < 128)
    rw [Nat.or_zero] at hsn
    exact deserializeNacks_last hsn (lastNack_octet sn) t
  | sn, [sn'], h, byte, hnacks, hbyte => by
    have hlt : sn' < 1024 := hnacks sn' (List.mem_cons_of_mem _ List.mem_cons_self)
    have hsn := oddNack_octets hbyte (moreBits_lt sn')
    rw [← Nat.or_assoc] at hsn
    obtain ⟨hmore, hlow⟩ := moreNacks_octet sn hlt
    have heven := evenNack_octets hlow (by decide : 0 < 8)
    rw [Nat.or_zero] at heven
    refine (deserializeNacks_pair hsn hmore heven t).trans (if_neg ?_)
    exact lastEven_octet sn'
  | sn, sn' :: sn'' :: rest, h, byte, hnacks, hbyte => by
    have hlt : sn' < 1024 := hnacks sn' (List.mem_cons_of_mem _ List.mem_cons_self)
    have hlt' : sn'' < 1024 := hnacks sn'' (List.mem_cons_of_mem _ (List.mem_cons_of_mem _ List.mem_cons_self))
    have hsn := oddNack_octets hbyte (moreBits_lt sn')
    rw [← Nat.or_assoc] at hsn
    obtain ⟨hmore, hlow⟩ := moreNacks_octet sn hlt
    have heven := evenNack_octets hlow (nextBits_lt sn'')
    rw [← Nat.or_assoc] at heven
    obtain ⟨hmore', hlow'⟩ := moreEven_octet sn' hlt'
    have hrest : ∀ n ∈ sn'' :: rest, n < 1024 := fun n hn => hnacks n (List.mem_cons_of_mem _ (List.mem_cons_of_mem _ hn))
    have ih := deserializeNacks_serializeNacks sn'' rest (h := h.readNacks [sn, sn'] 3) hrest hlow'
    rw [readNacks_readNacks] at ih
    refine (deserializeNacks_pair hsn hmore heven _).trans ((if_pos hmore').trans (ih.trans ?_))
    have hlength : 3 + ((serializeNacks sn'' rest).length - 2) = (serializeNacks sn (sn' :: sn'' :: rest)).length - 2 := by
      have := two_le_length_serializeNacks sn'' rest
      rw [serializeNacks, List.length_cons, List.length_cons, List.length_cons]
      omega
    rw [hlength]
    rfl

theorem length_serializeLis : ∀ (li : ℕ) (rest : List ℕ),
    (serializeLis (matchingBits rest) (li :: rest)).length = (li :: rest).length + ((li :: rest).length + 1) / 2
  | _, [] => by simp [serializeLis, matchingBits]
  | _, [_] => by simp [serializeLis, matchingBits]
  | li, li' :: li'' :: rest => by
    have ih := length_serializeLis li'' rest
    simp only [matchingBits, serializeLis, List.length_cons] at ih ⊢
    omega

theorem length_serializeNacks : ∀ (sn : ℕ) (rest : List ℕ),
    (serializeNacks sn rest).length = (sn :: rest).length + ((sn :: rest).length + 1) / 2
  | _, [] => by simp [serializeNacks]
  | _, [_] => by simp [serializeNacks]
  | sn, sn' :: sn'' :: rest => by
    have ih := length_serializeNacks sn'' rest
    simp only [serializeNacks, List.length_cons] at ih ⊢
    omega

end Lists

/-! ## Headers by the setters -/

inductive DataSetter where
  | setFramingInfo (framingInfo : ℕ)
  | setSequenceNumber (sequenceNumber : SequenceNumber10)
  | setResegmentationFlag (resegFlag : ℕ)
  | setPollingBit (pollingBit : ℕ)
  | setLastSegmentFlag (lsf : ℕ)
  | setSegmentOffset (segmentOffset : ℕ)
  | pushExtensionBit (extensionBit : ℕ)
  | pushLengthIndicator (lengthIndicator : ℕ)

def DataSetter.apply (h : LteRlcAmHeader) : DataSetter → LteRlcAmHeader
  | .setFramingInfo framingInfo => h.setFramingInfo framingInfo
  | .setSequenceNumber sequenceNumber => h.setSequenceNumber sequenceNumber
  | .setResegmentationFlag resegFlag => h.setResegmentationFlag resegFlag
  | .setPollingBit pollingBit => h.setPollingBit pollingBit
  | .setLastSegmentFlag lsf => h.setLastSegmentFlag lsf
  | .setSegmentOffset segmentOffset => h.setSegmentOffset segmentOffset
  | .pushExtensionBit extensionBit => h.pushExtensionBit extensionBit
  | .pushLengthIndicator lengthIndicator => h.pushLengthIndicator lengthIndicator

inductive StatusSetter where
  | setAckSn (ackSn : SequenceNumber10)
  | pushNack (nack : ℕ)

def StatusSetter.apply (h : LteRlcAmHeader) : StatusSetter → LteRlcAmHeader
  | .setAckSn ackSn => h.setAckSn ackSn
  | .pushNack nack => h.pushNack nack

def dataPdu (raw : ℕ) (calls : List DataSetter) : LteRlcAmHeader := calls.foldl DataSetter.apply (init raw).setDataPdu

def statusPdu (raw : ℕ) (calls : List StatusSetter) : LteRlcAmHeader := calls.foldl StatusSetter.apply ((init raw).setControlPdu 0)

/-- A data PDU whose flags and offset are set, with an extension bit for each length indicator and one for the data. -/
structure IsDataPdu (h : LteRlcAmHeader) : Prop where
  built : ∃ raw calls, h = dataPdu raw calls
  resegmentationFlag : h.resegmentationFlag < 2
  pollingBit : h.pollingBit < 2
  framingInfo : h.framingInfo < 4
  sequenceNumber : h.sequenceNumber.value < 1024
  lastSegmentFlag : h.lastSegmentFlag < 2
  segmentOffset : h.segmentOffset < 2 ^ 15
  lengthIndicators : ∀ li ∈ h.lengthIndicators, li < 2048
  extensionBits : h.extensionBits = matchingBits h.lengthIndicators

/-- A status report with numbers of ten bits. -/
structure IsStatusPdu (h : LteRlcAmHeader) : Prop where
  built : ∃ raw calls, h = statusPdu raw calls
  ackSn : h.ackSn.value < 1024
  nackSnList : ∀ sn ∈ h.nackSnList, sn < 1024

/-- **The fields of `h` are restored.** The last offset is not written, nor the last segment flag of a status report, and a sequence number
without its modulus base. -/
structure Restored (h d : LteRlcAmHeader) : Prop where
  headerLength : d.headerLength = h.headerLength
  dataControlBit : d.dataControlBit = h.dataControlBit
  resegmentationFlag : d.resegmentationFlag = h.resegmentationFlag
  pollingBit : d.pollingBit = h.pollingBit
  framingInfo : d.framingInfo = h.framingInfo
  sequenceNumber : d.sequenceNumber.value = h.sequenceNumber.value
  lastSegmentFlag : h.dataControlBit = 1 → d.lastSegmentFlag = h.lastSegmentFlag
  segmentOffset : d.segmentOffset = h.segmentOffset
  extensionBits : d.extensionBits = h.extensionBits
  lengthIndicators : d.lengthIndicators = h.lengthIndicators
  controlPduType : d.controlPduType = h.controlPduType
  ackSn : d.ackSn.value = h.ackSn.value
  nackSnList : d.nackSnList = h.nackSnList

/-- **The header comes back**: it is as long as it says, and a new header reads as many octets of a packet and has its fields. -/
def RoundTrips (h : LteRlcAmHeader) : Prop :=
  ∃ octets, h.serialize = some octets ∧ octets.length = h.getSerializedSize ∧
    ∀ raw rest, ∃ d, (init raw).deserialize (octets ++ rest) = some (d, rest) ∧ d.getSerializedSize = octets.length ∧ Restored h d

/-- **The condition**: the segment offset has one octet, and the length sixteen bits. -/
def Fits (h : LteRlcAmHeader) : Prop :=
  if h.dataControlBit = 1 then
    h.segmentOffset < 256 ∧ 4 + h.lengthIndicators.length + (h.lengthIndicators.length + 1) / 2 < 2 ^ 16
  else 2 + h.nackSnList.length + (h.nackSnList.length + 1) / 2 < 2 ^ 16

section Built

variable {h : LteRlcAmHeader}

/-- What the setters of a data PDU leave as it is, and the length that they keep. -/
structure DataFields (h : LteRlcAmHeader) : Prop where
  headerLength : h.headerLength = (4 + (h.extensionBits.length - 1) + h.extensionBits.length / 2) % 65536
  dataControlBit : h.dataControlBit = 1
  controlPduType : h.controlPduType = 0xff
  ackSn : h.ackSn = .ofValue 0xffff
  nackSnList : h.nackSnList = []

theorem DataFields.apply (hd : DataFields h) (call : DataSetter) : DataFields (call.apply h) := by
  cases call with
  | pushExtensionBit extensionBit =>
    refine ⟨?_, hd.dataControlBit, hd.controlPduType, hd.ackSn, hd.nackSnList⟩
    simp only [DataSetter.apply, pushExtensionBit, List.length_append, List.length_singleton, hd.headerLength]
    split_ifs <;> omega
  | _ => exact ⟨hd.headerLength, hd.dataControlBit, hd.controlPduType, hd.ackSn, hd.nackSnList⟩

theorem dataFields_dataPdu (raw : ℕ) (calls : List DataSetter) : DataFields (dataPdu raw calls) := by
  have hinit : DataFields (init raw).setDataPdu := ⟨by simp [setDataPdu, init], rfl, rfl, rfl, rfl⟩
  unfold dataPdu
  generalize (init raw).setDataPdu = h at hinit
  induction calls generalizing h with
  | nil => exact hinit
  | cons call calls ih => exact ih _ (hinit.apply call)

/-- What the setters of a status report leave as it is, and the length that they keep. -/
structure StatusFields (raw : ℕ) (h : LteRlcAmHeader) : Prop where
  eq : { init raw with dataControlBit := 0, controlPduType := 0, headerLength := h.headerLength, ackSn := h.ackSn, nackSnList := h.nackSnList } = h
  headerLength : h.headerLength = (2 + h.nackSnList.length + (h.nackSnList.length + 1) / 2) % 65536

theorem StatusFields.apply {raw : ℕ} (hs : StatusFields raw h) (call : StatusSetter) : StatusFields raw (call.apply h) := by
  obtain ⟨heq, hlength⟩ := hs
  cases call with
  | setAckSn ackSn => exact ⟨by rw [← heq]; rfl, hlength⟩
  | pushNack nack =>
    refine ⟨by rw [← heq]; rfl, ?_⟩
    simp only [StatusSetter.apply, pushNack, List.length_append, List.length_singleton, hlength]
    split_ifs <;> omega

theorem statusFields_statusPdu (raw : ℕ) (calls : List StatusSetter) : StatusFields raw (statusPdu raw calls) := by
  have hinit : StatusFields raw ((init raw).setControlPdu 0) := ⟨rfl, by simp [setControlPdu, init]⟩
  unfold statusPdu
  generalize (init raw).setControlPdu 0 = h at hinit
  induction calls generalizing h with
  | nil => exact hinit
  | cons call calls ih => exact ih _ (hinit.apply call)

def firstRead (raw : ℕ) (h : LteRlcAmHeader) (extensionBit : ℕ) : LteRlcAmHeader :=
  { init raw with
    headerLength := 4
    dataControlBit := 1
    resegmentationFlag := h.resegmentationFlag
    pollingBit := h.pollingBit
    framingInfo := h.framingInfo
    sequenceNumber := (init raw).sequenceNumber.assign h.sequenceNumber.value
    lastSegmentFlag := h.lastSegmentFlag
    segmentOffset := h.segmentOffset / 256 ||| h.segmentOffset % 256
    extensionBits := [extensionBit] }

theorem deserializeFrom_data (hd : IsDataPdu h) {e : ℕ} (he : e < 2) (raw size : ℕ) (bytes : List UInt8) :
    (init raw).deserializeFrom size (.ofNat (h.dataOctet e) :: .ofNat (h.sequenceNumber.value &&& 0x00FF) ::
      .ofNat ((h.lastSegmentFlag <<< 7 &&& 0x80) ||| (h.segmentOffset >>> 8 &&& 0x007F)) :: .ofNat (h.segmentOffset &&& 0x00FF) :: bytes) =
      if e = 0 then some (firstRead raw h e, bytes)
      else ((firstRead raw h e).deserializeLis bytes).map fun r =>
        (if r.1.resegmentationFlag = 1 then
          { r.1 with lastOffset := (r.1.segmentOffset + size + (65536 - r.1.headerLength)) % 65536 } else r.1, r.2) := by
  have hhigh : h.sequenceNumber.value >>> 8 &&& 0x0003 = h.sequenceNumber.value / 256 := by
    have hsn := hd.sequenceNumber
    rw [show 0x0003 = 2 ^ 2 - 1 from rfl, Nat.and_two_pow_sub_one_eq_mod, Nat.shiftRight_eq_div_pow]
    omega
  have hlt : h.sequenceNumber.value / 256 < 4 := by
    have hsn := hd.sequenceNumber
    omega
  obtain ⟨hdc, hrf, hp, hfi, hext, hsn⟩ := dataOctet_fields ⟨_, hd.resegmentationFlag⟩ ⟨_, hd.pollingBit⟩ ⟨_, hd.framingInfo⟩ ⟨e, he⟩ ⟨_, hlt⟩
  obtain ⟨hlsf, hupper, hlower⟩ := offset_octets hd.lastSegmentFlag hd.segmentOffset
  have hlow : (UInt8.ofNat (h.sequenceNumber.value &&& 0x00FF)).toNat = h.sequenceNumber.value % 256 := by
    rw [UInt8.toNat_ofNat', and_0xFF]
    omega
  have hvalue : h.sequenceNumber.value / 256 * 256 ||| h.sequenceNumber.value % 256 = h.sequenceNumber.value := by
    rw [or_eq_add 8 (by omega) (by omega)]
    omega
  unfold deserializeFrom dataOctet
  simp only [hhigh, hdc, hrf, hp, hfi, hext, hsn, hlsf, hupper, hlower, hlow, hvalue, if_true]
  rfl

/-- **What is read of a data PDU**: the octets of the segment offset are put into one. -/
theorem deserialize_of_data (hd : IsDataPdu h) (hfields : DataFields h) : ∃ octets, h.serialize = some octets ∧
    octets.length = 4 + h.lengthIndicators.length + (h.lengthIndicators.length + 1) / 2 ∧
    ∀ raw rest, ∃ d, (init raw).deserialize (octets ++ rest) = some (d, rest) ∧
      Restored { h with headerLength := octets.length % 65536, segmentOffset := h.segmentOffset / 256 ||| h.segmentOffset % 256 } d := by
  have hlt := hd.lengthIndicators
  rw [serialize, if_pos hfields.dataControlBit, hd.extensionBits]
  have hmod : h.sequenceNumber.value % 1024 = h.sequenceNumber.value := Nat.mod_eq_of_lt hd.sequenceNumber
  cases hlis : h.lengthIndicators with
  | nil =>
    refine ⟨_, rfl, rfl, fun raw rest => ⟨firstRead raw h 0, (deserializeFrom_data hd (by decide) raw _ rest).trans (if_pos rfl), ?_⟩⟩
    exact ⟨rfl, hfields.dataControlBit.symm, rfl, rfl, rfl, hmod, fun _ => rfl, rfl, rfl, rfl, hfields.controlPduType.symm,
      congrArg _ hfields.ackSn.symm, hfields.nackSnList.symm⟩
  | cons li lis =>
    rw [hlis] at hlt
    refine ⟨_, rfl, ?_, fun raw rest => ?_⟩
    · have hlength := length_serializeLis li lis
      rw [List.length_append]
      simp only [List.length_cons, List.length_nil, matchingBits, List.tail_cons] at hlength ⊢
      omega
    · have hread := deserializeLis_serializeLis (t := rest) li lis (h := firstRead raw h 1) hlt
      have hfirst := deserializeFrom_data hd (by decide : 1 < 2) raw
      refine ⟨_, (hfirst _ _).trans ((if_neg one_ne_zero).trans (congrArg _ hread)), ?_⟩
      -- the last offset may be set, and is not compared
      have hlength (n : ℕ) : (4 + n) % 65536 = (n + 4) % 65536 := congrArg (· % 65536) (Nat.add_comm 4 n)
      dsimp only
      split_ifs <;> exact ⟨hlength _, hfields.dataControlBit.symm, rfl, rfl, rfl, hmod, fun _ => rfl, rfl, rfl, rfl,
        hfields.controlPduType.symm, congrArg _ hfields.ackSn.symm, hfields.nackSnList.symm⟩

/-- **What is read of a status report.** -/
theorem deserialize_of_status {raw : ℕ} (hs : IsStatusPdu h) (hfields : StatusFields raw h) : ∃ octets, h.serialize = some octets ∧
    octets.length = 2 + h.nackSnList.length + (h.nackSnList.length + 1) / 2 ∧
    ∀ raw rest, ∃ d, (init raw).deserialize (octets ++ rest) = some (d, rest) ∧
      Restored { h with headerLength := octets.length % 65536 } d := by
  obtain ⟨heq, -⟩ := hfields
  have hlt := hs.nackSnList
  have hack := hs.ackSn
  rw [← heq] at hlt hack ⊢
  generalize h.nackSnList = nacks at hlt
  generalize h.ackSn = ackSn at hack
  have hmod : ackSn.value % 1024 = ackSn.value := Nat.mod_eq_of_lt hack
  cases nacks with
  | nil =>
    obtain ⟨hdc, htype, hvalue, hmore, -⟩ := status_octets hack (by decide : 0 < 4)
    rw [Nat.or_zero] at hvalue hmore
    refine ⟨_, rfl, rfl, fun raw' rest => ⟨{ init raw' with
      dataControlBit := 0, headerLength := 2, controlPduType := 0, ackSn := (init raw').ackSn.assign ackSn.value }, ?_, ?_⟩⟩
    · simp only [deserialize, deserializeFrom, List.cons_append, List.nil_append, init, hdc, htype, hvalue, hmore]
      rfl
    · exact ⟨rfl, rfl, rfl, rfl, rfl, rfl, fun h => absurd h zero_ne_one, rfl, rfl, rfl, rfl, hmod, rfl⟩
  | cons sn nacks =>
    have hsn : sn < 1024 := hlt sn List.mem_cons_self
    have hlength := length_serializeNacks sn nacks
    have htwo := two_le_length_serializeNacks sn nacks
    obtain ⟨hdc, htype, hvalue, hmore, hbyte⟩ := status_octets hack (nackBits_lt sn)
    rw [← Nat.or_assoc] at hvalue hmore hbyte
    obtain ⟨hmore', hbyte'⟩ := nackBits_eq hsn
    rw [hmore'] at hmore
    rw [hbyte'] at hbyte
    refine ⟨_, rfl, ?_, fun raw' rest => ?_⟩
    · simp only [List.length_cons] at hlength ⊢
      omega
    · have hread := deserializeNacks_serializeNacks (t := rest) sn nacks (h := { init raw' with
        dataControlBit := 0, headerLength := 4, controlPduType := 0, ackSn := (init raw').ackSn.assign ackSn.value }) hlt hbyte
      refine ⟨_, Eq.trans ?_ hread, ?_⟩
      · simp only [deserialize, deserializeFrom, List.cons_append, init, hdc, htype, hvalue, hmore]
        rfl
      · refine ⟨?_, rfl, rfl, rfl, rfl, rfl, fun h => absurd h zero_ne_one, rfl, rfl, rfl, rfl, hmod, rfl⟩
        simp only [readNacks, List.length_cons]
        omega

theorem offset_restored_iff {n : ℕ} (hn : n < 2 ^ 15) : n / 256 ||| n % 256 = n ↔ n < 256 := by
  constructor
  · intro h
    have hhigh : n / 256 < 2 ^ 8 := by omega
    have hlow : n % 256 < 2 ^ 8 := by omega
    rw [← h]
    exact Nat.or_lt_two_pow hhigh hlow
  · intro h
    rw [Nat.div_eq_of_lt h, Nat.mod_eq_of_lt h, Nat.zero_or]

/-- **The headers that come back.** -/
theorem headerRoundTrips_iff (h : LteRlcAmHeader) (hh : IsDataPdu h ∨ IsStatusPdu h) : RoundTrips h ↔ Fits h := by
  rcases hh with hd | hs
  · obtain ⟨raw, calls, hbuilt⟩ := hd.built
    have hfields : DataFields h := hbuilt ▸ dataFields_dataPdu raw calls
    obtain ⟨octets, hser, hlen, hread⟩ := deserialize_of_data hd hfields
    have hsize : h.headerLength = octets.length % 65536 := by
      have hbits : h.extensionBits.length = h.lengthIndicators.length + 1 := by rw [hd.extensionBits, length_matchingBits]
      rw [hfields.headerLength, hlen, hbits, Nat.add_sub_cancel]
    rw [Fits, if_pos hfields.dataControlBit, ← hlen]
    constructor
    · rintro ⟨octets', hser', hlen', hread'⟩
      obtain rfl := Option.some_inj.mp (hser.symm.trans hser')
      obtain ⟨d, hd', -, hrestored⟩ := hread' 0 []
      obtain ⟨d', hd'', hrestored'⟩ := hread 0 []
      obtain ⟨rfl, -⟩ := Prod.mk.inj (Option.some_inj.mp (hd'.symm.trans hd''))
      refine ⟨(offset_restored_iff hd.segmentOffset).mp (hrestored'.segmentOffset.symm.trans hrestored.segmentOffset), ?_⟩
      rw [getSerializedSize, hsize] at hlen'
      omega
    · rintro ⟨hoffset, hfits⟩
      have hmod : octets.length % 65536 = octets.length := Nat.mod_eq_of_lt hfits
      refine ⟨octets, hser, (hsize.trans hmod).symm, fun raw rest => ?_⟩
      obtain ⟨d, hd', hr⟩ := hread raw rest
      refine ⟨d, hd', hr.headerLength.trans hmod, ⟨hr.headerLength.trans hsize.symm, hr.dataControlBit, hr.resegmentationFlag, hr.pollingBit,
        hr.framingInfo, hr.sequenceNumber, hr.lastSegmentFlag, ?_, hr.extensionBits, hr.lengthIndicators, hr.controlPduType, hr.ackSn,
        hr.nackSnList⟩⟩
      exact hr.segmentOffset.trans ((offset_restored_iff hd.segmentOffset).mpr hoffset)
  · obtain ⟨raw, calls, hbuilt⟩ := hs.built
    have hfields : StatusFields raw h := hbuilt ▸ statusFields_statusPdu raw calls
    obtain ⟨octets, hser, hlen, hread⟩ := deserialize_of_status hs hfields
    have hsize : h.headerLength = octets.length % 65536 := by rw [hfields.headerLength, hlen]
    have hcontrol : h.dataControlBit ≠ 1 := by
      rw [← hfields.eq]
      exact zero_ne_one
    rw [Fits, if_neg hcontrol, ← hlen]
    constructor
    · rintro ⟨octets', hser', hlen', -⟩
      obtain rfl := Option.some_inj.mp (hser.symm.trans hser')
      rw [getSerializedSize, hsize] at hlen'
      omega
    · intro hfits
      have hmod : octets.length % 65536 = octets.length := Nat.mod_eq_of_lt hfits
      refine ⟨octets, hser, (hsize.trans hmod).symm, fun raw rest => ?_⟩
      obtain ⟨d, hd', hr⟩ := hread raw rest
      exact ⟨d, hd', hr.headerLength.trans hmod, ⟨hr.headerLength.trans hsize.symm, hr.dataControlBit, hr.resegmentationFlag, hr.pollingBit,
        hr.framingInfo, hr.sequenceNumber, hr.lastSegmentFlag, hr.segmentOffset, hr.extensionBits, hr.lengthIndicators, hr.controlPduType,
        hr.ackSn, hr.nackSnList⟩⟩

def segmentPdu : LteRlcAmHeader :=
  dataPdu 0 [.setSequenceNumber (.ofValue 5), .setResegmentationFlag 1, .setPollingBit 0, .setFramingInfo 0, .setLastSegmentFlag 1,
    .setSegmentOffset 256, .pushExtensionBit 0]

theorem isDataPdu_segmentPdu : IsDataPdu segmentPdu :=
  ⟨⟨_, _, rfl⟩, by decide, by decide, by decide, by decide, by decide, by decide, by decide, by decide⟩

theorem headerRoundTrips_iff_segmentPdu : RoundTrips segmentPdu ↔ Fits segmentPdu := headerRoundTrips_iff segmentPdu (.inl isDataPdu_segmentPdu)

/-- The segment offset is read as 1. -/
theorem not_roundTrips_segmentPdu : ¬ ∀ h : LteRlcAmHeader, IsDataPdu h ∨ IsStatusPdu h → RoundTrips h := by
  intro h
  obtain ⟨octets, hser, -, hread⟩ := h segmentPdu (.inl isDataPdu_segmentPdu)
  obtain ⟨d, hd, -, hrestored⟩ := hread 0 []
  have hoctets : segmentPdu.serialize = some [0xc0, 0x05, 0x81, 0x00] := by decide
  obtain rfl := Option.some_inj.mp (hoctets.symm.trans hser)
  obtain ⟨rfl, -⟩ := Prod.mk.inj (Option.some_inj.mp hd)
  exact absurd hrestored.segmentOffset (by decide)

end Built

end LteRlcAmHeader

end Ns3Ndn.Lte
