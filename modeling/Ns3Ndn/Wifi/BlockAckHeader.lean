import Ns3Ndn.Lib.Bytes
import Ns3Ndn.Wifi.BlockAckWindow

/-!
# Block Ack headers

`wifi/model/ctrl-headers.cc`, `CtrlBAckResponseHeader`: a Block Ack has a bitmap from a starting sequence number on, and a Multi-STA Block
Ack one for each of its entries, or none. The length of a bitmap is in the fragment number bits of the starting sequence control.

* **`fillBlockAckBitmap_faithful`**: the header that arrives says what the scoreboards said.
-/

namespace Ns3Ndn.Wifi

open BytesLib

inductive BlockAckVariant where
  | basic
  | compressed
  | extendedCompressed
  | multiTid
  | multiSta
  deriving DecidableEq, Repr

structure BlockAckType where
  variant : BlockAckVariant
  bitmapLen : List ℕ
  deriving DecidableEq, Repr

def BlockAckType.ofVariant : BlockAckVariant → BlockAckType
  | .basic => ⟨.basic, [128]⟩
  | .compressed => ⟨.compressed, [8]⟩
  | .extendedCompressed => ⟨.extendedCompressed, [8]⟩
  | .multiTid => ⟨.multiTid, []⟩
  | .multiSta => ⟨.multiSta, []⟩

structure Mac48Address where
  octets : List UInt8
  length_octets : octets.length = 6
  deriving DecidableEq, Repr

instance : Inhabited Mac48Address := ⟨⟨[0, 0, 0, 0, 0, 0], rfl⟩⟩

def readMac48Address (bytes : List UInt8) : Option (Mac48Address × List UInt8) :=
  match takeBytes 6 bytes with
  | some (octets, rest) => if h : octets.length = 6 then some (⟨octets, h⟩, rest) else none
  | none => none

/-- The numbers are of type `uint16_t`. -/
structure BaInfoInstance where
  aidTidInfo : ℕ := 0
  startingSeq : ℕ := 0
  bitmap : List UInt8 := []
  ra : Mac48Address := default
  deriving DecidableEq, Repr

structure CtrlBAckResponseHeader where
  baAckPolicy : Bool := false
  baType : BlockAckType := .ofVariant .basic
  tidInfo : ℕ := 0
  baInfo : List BaInfoInstance := [{ bitmap := List.replicate 128 0 }]
  deriving DecidableEq, Repr

namespace BaInfoInstance

variable (info : BaInfoInstance)

def getTidInfo : ℕ := info.aidTidInfo >>> 12 &&& 0x000f

def getAid11 : ℕ := info.aidTidInfo &&& 0x07ff

def getAckType : Bool := (info.aidTidInfo >>> 11) &&& 0x0001 ≠ 0

end BaInfoInstance

namespace CtrlBAckResponseHeader

variable (h : CtrlBAckResponseHeader)

/-- `SetType`. -/
def setType (type : BlockAckType) : CtrlBAckResponseHeader :=
  { h with baType := type, baInfo := type.bitmapLen.map fun bitmapLen => { bitmap := List.replicate bitmapLen 0 } }

/-- The element at an index, with the assertions of every accessor: only a Multi-STA Block Ack has more than one. -/
def info? (index : ℕ) : Option BaInfoInstance :=
  if h.baType.variant = .multiSta ∨ index = 0 then h.baInfo[index]? else none

def modifyInfo (index : ℕ) (f : BaInfoInstance → BaInfoInstance) : CtrlBAckResponseHeader :=
  { h with baInfo := h.baInfo.modify index f }

/-! ## The fields -/

def getBaControl : ℕ :=
  let res := if h.baAckPolicy then 0x1 else 0
  let res := match h.baType.variant with
    | .basic => res
    | .compressed => res ||| 0x02 <<< 1
    | .extendedCompressed => res ||| 0x01 <<< 1
    | .multiTid => res ||| 0x03 <<< 1
    | .multiSta => res ||| 0x0b <<< 1
  if h.baType.variant ≠ .multiSta then res ||| (h.tidInfo <<< 12 &&& 0xf <<< 12) else res

def variantOf (ba : ℕ) : Option BlockAckVariant :=
  if ba >>> 1 &&& 0x0f = 0x03 then some .multiTid
  else if ba >>> 1 &&& 0x0f = 0x01 then some .extendedCompressed
  else if ba >>> 1 &&& 0x0f = 0x02 then some .compressed
  else if ba >>> 1 &&& 0x0f = 0 then some .basic
  else if ba >>> 1 &&& 0x0f = 0x0b then some .multiSta
  else none

def setBaControl (ba : ℕ) : Option CtrlBAckResponseHeader :=
  (variantOf ba).map fun variant =>
    let h := { h with baAckPolicy := ba &&& 0x01 = 1 }.setType (.ofVariant variant)
    if variant ≠ .multiSta then { h with tidInfo := ba >>> 12 &&& 0x0f } else h

def fragmentBits (bitmapLen : ℕ) : ℕ :=
  if bitmapLen = 16 then 0x0002 else if bitmapLen = 32 then 0x0004 else if bitmapLen = 4 then 0x0006 else 0

/-- A Multi-STA Block Ack has no such field for an entry without a bitmap. -/
def getStartingSequenceControl (index : ℕ) : Option ℕ :=
  (h.info? index).bind fun info =>
    let ret := info.startingSeq <<< 4 &&& 0xfff0
    match h.baType.variant with
    | .compressed => h.baType.bitmapLen[0]?.map fun bitmapLen => if bitmapLen = 32 then ret ||| 0x0004 else ret
    | .multiSta =>
      if h.baInfo.length = h.baType.bitmapLen.length ∧ 0 < info.bitmap.length then
        h.baType.bitmapLen[index]?.map fun bitmapLen => ret ||| fragmentBits bitmapLen
      else none
    | _ => some ret

/-- The length of a bitmap by the fragment number bits. There is no fragmentation of level 3, and the other values are reserved. -/
def lengthOf (seqControl : ℕ) (lengths : List (ℕ × ℕ)) : Option ℕ :=
  if seqControl &&& 0x0001 = 1 then none
  else if seqControl >>> 3 &&& 0x0001 = 0 then (lengths.find? fun l => l.1 = seqControl >>> 1 &&& 0x0003).map Prod.snd
  else none

def setStartingSequenceControl (seqControl : ℕ) (index : ℕ) : Option CtrlBAckResponseHeader :=
  (h.info? index).bind fun _ =>
    (match h.baType.variant with
      | .compressed => (lengthOf seqControl [(0, 8), (2, 32)]).map fun bitmapLen => h.setType ⟨.compressed, [bitmapLen]⟩
      | .multiSta => (lengthOf seqControl [(0, 8), (1, 16), (2, 32), (3, 4)]).map fun bitmapLen =>
        { h with baType := ⟨.multiSta, h.baType.bitmapLen.set index bitmapLen⟩ }.modifyInfo index
          fun info => { info with bitmap := List.replicate bitmapLen 0 }
      | _ => some h).map fun h : CtrlBAckResponseHeader =>
        h.modifyInfo index fun info => { info with startingSeq := seqControl >>> 4 &&& 0x0fff }

/-! ## The bitmap -/

def nAckedMpdus (bitmapLen : ℕ) : ℕ :=
  let n := bitmapLen * 8
  if h.baType.variant = .basic then n / 16 else n

def isInBitmap (seq : ℕ) (index : ℕ) : Option Bool :=
  (h.info? index).bind fun info => h.baType.bitmapLen[index]?.map fun bitmapLen =>
    decide (((seq : ℤ) - info.startingSeq + SEQNO_SPACE_SIZE).tmod SEQNO_SPACE_SIZE < h.nAckedMpdus bitmapLen)

/-- In `uint16_t`, with its assertion. -/
def indexInBitmap (seq : ℕ) (index : ℕ) : Option ℕ :=
  (h.info? index).bind fun info => h.baType.bitmapLen[index]?.bind fun bitmapLen =>
    let i := if seq ≥ info.startingSeq then seq - info.startingSeq
      else (SEQNO_SPACE_SIZE + 2 ^ 16 - info.startingSeq + seq) % 2 ^ 16
    if i < h.nAckedMpdus bitmapLen then some i else none

def setStartingSequence (seq : ℕ) (index : ℕ) : Option CtrlBAckResponseHeader :=
  (h.info? index).map fun _ => h.modifyInfo index fun info => { info with startingSeq := seq }

def resetBitmap (index : ℕ) : Option CtrlBAckResponseHeader :=
  (h.info? index).bind fun _ => h.baType.bitmapLen[index]?.map fun bitmapLen =>
    h.modifyInfo index fun info => { info with bitmap := List.replicate bitmapLen 0 }

def setReceivedPacket (seq : ℕ) (index : ℕ) : Option CtrlBAckResponseHeader :=
  (h.isInBitmap seq index).bind fun inside => if inside then
    (h.indexInBitmap seq index).bind fun i => match h.baType.variant with
      | .basic => some (h.modifyInfo index fun info => { info with bitmap := setBitAt info.bitmap (i * 2 * 8) })
      | .multiTid => none
      | _ => some (h.modifyInfo index fun info => { info with bitmap := setBitAt info.bitmap i })
    else some h

/-- An entry in the all-ack context stands for every packet. -/
def isPacketReceived (seq : ℕ) (index : ℕ) : Option Bool :=
  (h.info? index).bind fun info =>
    if h.baType.variant = .multiSta ∧ info.getAckType ∧ info.getTidInfo = 14 then some true
    else (h.isInBitmap seq index).bind fun inside => if inside then
      match h.baType.variant with
        | .basic => some false
        | .multiTid => none
        | _ => (h.indexInBitmap seq index).map fun i => bitAt info.bitmap i
      else some false

/-! ## Bytes -/

def getSerializedSize : ℕ :=
  2 + match h.baType.variant with
    | .basic | .compressed | .extendedCompressed => 2 + h.baType.bitmapLen.headD 0
    | .multiTid => (2 + 2 + 8) * (h.tidInfo + 1)
    | .multiSta => (h.baType.bitmapLen.map fun bitmapLen => 2 + (if bitmapLen > 0 then 2 else 0) + bitmapLen).sum

/-- An entry of a Multi-STA Block Ack. The one for stations that are not associated has an address instead of a bitmap. -/
def serializeInfo (index : ℕ) (info : BaInfoInstance) : Option (List UInt8) :=
  if info.getAid11 ≠ 2045 then
    if info.bitmap.length > 0 then
      (h.getStartingSequenceControl index).map fun control => le16 info.aidTidInfo ++ le16 control ++ info.bitmap
    else some (le16 info.aidTidInfo)
  else some (le16 info.aidTidInfo ++ List.replicate 4 0 ++ info.ra.octets)

def serializeInfos (index : ℕ) : List BaInfoInstance → Option (List UInt8)
  | [] => some []
  | info :: infos => (h.serializeInfo index info).bind fun bytes => (serializeInfos (index + 1) infos).map fun rest => bytes ++ rest

def serialize : Option (List UInt8) :=
  (match h.baType.variant with
    | .basic | .compressed | .extendedCompressed =>
      (h.getStartingSequenceControl 0).bind fun control => (h.info? 0).map fun info : BaInfoInstance => le16 control ++ info.bitmap
    | .multiSta => h.serializeInfos 0 h.baInfo
    | .multiTid => none).map fun bytes => le16 h.getBaControl ++ bytes

def deserializeBitmap (index : ℕ) (bytes : List UInt8) : Option (CtrlBAckResponseHeader × List UInt8) :=
  (h.info? index).bind fun _ => h.baType.bitmapLen[index]?.bind fun bitmapLen => (takeBytes bitmapLen bytes).map fun r =>
    (h.modifyInfo index fun info => { info with bitmap := r.1 ++ info.bitmap.drop bitmapLen }, r.2)

/-- An entry of a Multi-STA Block Ack. There is a bitmap in the block acknowledgement context only. -/
def deserializeInfo (index : ℕ) (bytes : List UInt8) : Option (CtrlBAckResponseHeader × List UInt8) :=
  (readLe16 bytes).bind fun r =>
    let info : BaInfoInstance := { aidTidInfo := r.1 }
    let h := { h with baInfo := h.baInfo ++ [info], baType := ⟨h.baType.variant, h.baType.bitmapLen ++ [0]⟩ }
    if info.getAid11 ≠ 2045 then
      if !info.getAckType ∧ info.getTidInfo < 8 then
        (readLe16 r.2).bind fun r' => (h.setStartingSequenceControl r'.1 index).bind fun h => h.deserializeBitmap index r'.2
      else some (h, r.2)
    else (takeBytes 4 r.2).bind fun reserved => (readMac48Address reserved.2).map fun ra =>
      ({ h with baType := ⟨h.baType.variant, h.baType.bitmapLen.set index 8⟩ }.modifyInfo index
        fun info => { info with ra := ra.1 }, ra.2)

/-- The loop over the entries, which ends with the bytes. Each entry has at least two bytes. -/
def deserializeInfos : ℕ → CtrlBAckResponseHeader → ℕ → List UInt8 → Option (CtrlBAckResponseHeader × List UInt8)
  | 0, _, _, _ => none
  | fuel + 1, h, index, bytes =>
    if bytes.length > 0 then (h.deserializeInfo index bytes).bind fun r => deserializeInfos fuel r.1 (index + 1) r.2
    else some (h, bytes)

def deserialize (bytes : List UInt8) : Option (CtrlBAckResponseHeader × List UInt8) :=
  (readLe16 bytes).bind fun r => (h.setBaControl r.1).bind fun h => match h.baType.variant with
    | .basic | .compressed | .extendedCompressed =>
      (readLe16 r.2).bind fun r' => (h.setStartingSequenceControl r'.1 0).bind fun h => h.deserializeBitmap 0 r'.2
    | .multiSta => deserializeInfos (r.2.length + 1) h 0 r.2
    | .multiTid => none

end CtrlBAckResponseHeader

/-- The loop of `FillBlockAckBitmap`. -/
def fillFrom (w : BlockAckWindow) (index : ℕ) (h : CtrlBAckResponseHeader) (distances : List ℕ) : Option CtrlBAckResponseHeader :=
  distances.foldlM (fun h i => (w.getAt i).bind fun received =>
    if received then h.setReceivedPacket ((w.winStart + i) % SEQNO_SPACE_SIZE) index else some h) h

/-- `RecipientBlockAckAgreement::FillBlockAckBitmap`, with the scoreboard of the agreement. -/
def fillBlockAckBitmap (w : BlockAckWindow) (h : CtrlBAckResponseHeader) (index : ℕ) : Option CtrlBAckResponseHeader :=
  match h.baType.variant with
  | .basic | .multiTid => none
  | _ => (h.setStartingSequence w.winStart index).bind fun h => (h.resetBitmap index).bind fun h =>
    fillFrom w index h (List.range w.getWinSize)

/-! ## The scoreboard in the bitmap -/

/-- A sequence number is in the window and its bit is set. -/
def BlockAckWindow.Contains (w : BlockAckWindow) (seq : ℕ) : Prop :=
  ∃ i < w.getWinSize, (w.winStart + i) % SEQNO_SPACE_SIZE = seq ∧ w.bit i = true

theorem BlockAckWindow.getAt_eq_bit {w : BlockAckWindow} {i : ℕ} (hi : i < w.getWinSize) : w.getAt i = some (w.bit i) := by
  have hlt : (w.head + i) % w.getWinSize < w.window.length := Nat.mod_lt _ ((Nat.zero_le i).trans_lt hi)
  rw [getAt, if_pos hi, bit, List.getD_eq_getElem?_getD, List.getElem?_eq_getElem hlt, Option.getD_some]

def distanceFrom (start seq : ℕ) : ℕ := (seq + SEQNO_SPACE_SIZE - start) % SEQNO_SPACE_SIZE

theorem distanceFrom_add {start i : ℕ} (hstart : start < SEQNO_SPACE_SIZE) (hi : i < SEQNO_SPACE_SIZE) :
    distanceFrom start ((start + i) % SEQNO_SPACE_SIZE) = i := by
  rw [distanceFrom, SEQNO_SPACE_SIZE] at *
  omega

theorem contains_iff {w : BlockAckWindow} {seq : ℕ} (hstart : w.winStart < SEQNO_SPACE_SIZE)
    (hsize : w.getWinSize ≤ SEQNO_SPACE_SIZE) (hseq : seq < SEQNO_SPACE_SIZE) :
    w.Contains seq ↔ distanceFrom w.winStart seq < w.getWinSize ∧ w.bit (distanceFrom w.winStart seq) = true := by
  constructor
  · rintro ⟨i, hi, rfl, hbit⟩
    rw [distanceFrom_add hstart (hi.trans_le hsize)]
    exact ⟨hi, hbit⟩
  · rintro ⟨hi, hbit⟩
    refine ⟨_, hi, ?_, hbit⟩
    rw [distanceFrom, SEQNO_SPACE_SIZE] at *
    omega

structure BaInfoInstance.Shows (info : BaInfoInstance) (w : BlockAckWindow) : Prop where
  startingSeq : info.startingSeq = w.winStart
  bits : ∀ i, bitAt info.bitmap i = (decide (i < w.getWinSize) && w.bit i)

/-- The Block Ack Starting Sequence Control and the bitmap are present in the block acknowledgement context only. -/
def BaInfoInstance.BlockAckContext (info : BaInfoInstance) : Prop := info.getAckType = false ∧ info.getTidInfo < 8

/-- An entry of a Multi-STA Block Ack and the length of its bitmap: it has a bitmap if it is in the block acknowledgement context, and the
entry for stations that are not associated has the size of one with eight bytes. -/
structure BaInfoInstance.Proper (bitmapLen : ℕ) (info : BaInfoInstance) : Prop where
  aidTidInfo : info.aidTidInfo < 2 ^ 16
  startingSeq : info.startingSeq < SEQNO_SPACE_SIZE
  unassociated : info.getAid11 = 2045 → bitmapLen = 8
  bitmap : info.getAid11 ≠ 2045 → info.bitmap.length = bitmapLen
  context : info.getAid11 ≠ 2045 → info.BlockAckContext → bitmapLen = 4 ∨ bitmapLen = 8 ∨ bitmapLen = 16 ∨ bitmapLen = 32
  noContext : info.getAid11 ≠ 2045 → ¬ info.BlockAckContext → bitmapLen = 0

namespace CtrlBAckResponseHeader

/-- **A header reports a scoreboard**: a packet is received if it is in the window and its bit is set. -/
def Reports (h : CtrlBAckResponseHeader) (index : ℕ) (w : BlockAckWindow) : Prop :=
  ∀ seq < SEQNO_SPACE_SIZE, ∃ received, h.isPacketReceived seq index = some received ∧ (received = true ↔ w.Contains seq)

def Compressed (h : CtrlBAckResponseHeader) : Prop :=
  h.baType.variant = .compressed ∨ h.baType.variant = .extendedCompressed ∨ h.baType.variant = .multiSta

structure At (h : CtrlBAckResponseHeader) (index : ℕ) (info : BaInfoInstance) (bitmapLen : ℕ) : Prop where
  compressed : h.Compressed
  info : h.info? index = some info
  bitmapLen : h.baType.bitmapLen[index]? = some bitmapLen

section Bitmap

variable {h : CtrlBAckResponseHeader} {index seq : ℕ} {info : BaInfoInstance} {bitmapLen : ℕ}

theorem Compressed.ne_basic (hc : h.Compressed) : h.baType.variant ≠ .basic := by
  intro heq
  rcases hc with hc | hc | hc <;> exact absurd (heq.symm.trans hc) (by decide)

theorem Compressed.nAckedMpdus (hc : h.Compressed) (n : ℕ) : h.nAckedMpdus n = n * 8 := if_neg hc.ne_basic

section

variable (ha : h.At index info bitmapLen)

include ha

theorem At.isInBitmap (hstart : info.startingSeq < SEQNO_SPACE_SIZE) (seq : ℕ) :
    h.isInBitmap seq index = some (decide (distanceFrom info.startingSeq seq < bitmapLen * 8)) := by
  rw [CtrlBAckResponseHeader.isInBitmap, ha.info, Option.bind_some, ha.bitmapLen, Option.map_some, ha.compressed.nAckedMpdus,
    Option.some_inj, decide_eq_decide, distanceFrom, SEQNO_SPACE_SIZE]
  rw [SEQNO_SPACE_SIZE] at hstart
  rw [Int.tmod_eq_emod_of_nonneg (by omega)]
  omega

theorem At.indexInBitmap (hstart : info.startingSeq < SEQNO_SPACE_SIZE) (hseq : seq < SEQNO_SPACE_SIZE)
    (hd : distanceFrom info.startingSeq seq < bitmapLen * 8) :
    h.indexInBitmap seq index = some (distanceFrom info.startingSeq seq) := by
  have hi : (if seq ≥ info.startingSeq then seq - info.startingSeq
      else (SEQNO_SPACE_SIZE + 2 ^ 16 - info.startingSeq + seq) % 2 ^ 16) = distanceFrom info.startingSeq seq := by
    rw [distanceFrom, SEQNO_SPACE_SIZE] at *
    split_ifs <;> omega
  rw [CtrlBAckResponseHeader.indexInBitmap, ha.info, Option.bind_some, ha.bitmapLen, Option.bind_some, ha.compressed.nAckedMpdus]
  simp only [hi]
  exact if_pos hd

theorem At.isPacketReceived (hstart : info.startingSeq < SEQNO_SPACE_SIZE) (hseq : seq < SEQNO_SPACE_SIZE)
    (hcontext : ¬ (h.baType.variant = .multiSta ∧ info.getAckType ∧ info.getTidInfo = 14)) :
    h.isPacketReceived seq index = some (decide (distanceFrom info.startingSeq seq < bitmapLen * 8) &&
      bitAt info.bitmap (distanceFrom info.startingSeq seq)) := by
  rw [CtrlBAckResponseHeader.isPacketReceived, ha.info, Option.bind_some, if_neg hcontext, ha.isInBitmap hstart, Option.bind_some]
  by_cases hd : distanceFrom info.startingSeq seq < bitmapLen * 8
  · rw [decide_eq_true hd, if_pos rfl, ha.indexInBitmap hstart hseq hd, Bool.true_and]
    rcases ha.compressed with hc | hc | hc <;> rw [hc] <;> rfl
  · rw [decide_eq_false hd, if_neg Bool.false_ne_true, Bool.false_and]

theorem At.info_eq : (h.baType.variant = .multiSta ∨ index = 0) ∧ h.baInfo[index]? = some info := by
  have hinfo := ha.info
  rwa [info?, Option.ite_none_right_eq_some] at hinfo

theorem At.modifyInfo (f : BaInfoInstance → BaInfoInstance) : (h.modifyInfo index f).At index (f info) bitmapLen := by
  refine ⟨ha.compressed, ?_, ha.bitmapLen⟩
  rw [CtrlBAckResponseHeader.modifyInfo, info?, if_pos ha.info_eq.1, List.getElem?_modify_eq, ha.info_eq.2]
  rfl

theorem At.modifyInfo_congr {f g : BaInfoInstance → BaInfoInstance} (hfg : f info = g info) :
    h.modifyInfo index f = h.modifyInfo index g := by
  rw [CtrlBAckResponseHeader.modifyInfo, CtrlBAckResponseHeader.modifyInfo]
  congr 1
  refine List.ext_getElem? fun i => ?_
  rw [List.getElem?_modify, List.getElem?_modify]
  by_cases hi : index = i
  · rw [← hi, ha.info_eq.2, Option.map_eq_map, Option.map_eq_map, Option.map_some, Option.map_some, if_pos rfl, if_pos rfl, hfg]
  · simp only [if_neg hi]

end

def withBitmap (h : CtrlBAckResponseHeader) (index : ℕ) (bitmap : List UInt8) : CtrlBAckResponseHeader :=
  h.modifyInfo index fun info => { info with bitmap := bitmap }

theorem withBitmap_withBitmap (h : CtrlBAckResponseHeader) (index : ℕ) (bitmap bitmap' : List UInt8) :
    (h.withBitmap index bitmap).withBitmap index bitmap' = h.withBitmap index bitmap' := by
  rw [withBitmap, withBitmap, withBitmap, CtrlBAckResponseHeader.modifyInfo, CtrlBAckResponseHeader.modifyInfo,
    CtrlBAckResponseHeader.modifyInfo, List.modify_modify_eq]
  rfl

theorem At.withBitmap_self (ha : h.At index info bitmapLen) : h.withBitmap index info.bitmap = h := by
  have hcongr := ha.modifyInfo_congr (f := fun info' => { info' with bitmap := info.bitmap }) (g := id) rfl
  rw [withBitmap, hcongr, CtrlBAckResponseHeader.modifyInfo, List.modify_id]

theorem At.setReceivedPacket (seq : ℕ) (ha : h.At index info bitmapLen) (hstart : info.startingSeq < SEQNO_SPACE_SIZE)
    (hseq : seq < SEQNO_SPACE_SIZE) (hd : distanceFrom info.startingSeq seq < bitmapLen * 8) :
    h.setReceivedPacket seq index = some (h.withBitmap index (setBitAt info.bitmap (distanceFrom info.startingSeq seq))) := by
  rw [CtrlBAckResponseHeader.setReceivedPacket, ha.isInBitmap hstart, Option.bind_some, decide_eq_true hd, if_pos rfl,
    ha.indexInBitmap hstart hseq hd, Option.bind_some, withBitmap]
  have hcongr := ha.modifyInfo_congr (f := fun info' => { info' with
    bitmap := setBitAt info'.bitmap (distanceFrom info.startingSeq seq) }) (g := fun info' => { info' with
    bitmap := setBitAt info.bitmap (distanceFrom info.startingSeq seq) }) rfl
  rcases ha.compressed with hc | hc | hc <;> rw [hc] <;> exact congrArg some hcongr

variable {w : BlockAckWindow}

/-- **The loop puts the bits of the scoreboard into the bitmap.** -/
theorem At.fillFrom (ha : h.At index info bitmapLen) (hstart : info.startingSeq = w.winStart)
    (hlt : w.winStart < SEQNO_SPACE_SIZE) (hsize : w.getWinSize ≤ bitmapLen * 8) (hlen : bitmapLen * 8 ≤ SEQNO_SPACE_SIZE)
    (hbitmap : info.bitmap.length = bitmapLen) (distances : List ℕ) (hdistances : ∀ i ∈ distances, i < w.getWinSize) :
    ∃ bitmap, fillFrom w index h distances = some (h.withBitmap index bitmap) ∧ bitmap.length = bitmapLen ∧
      ∀ i, bitAt bitmap i = (bitAt info.bitmap i || decide (i ∈ distances) && w.bit i) := by
  induction distances generalizing h info with
  | nil => exact ⟨info.bitmap, by rw [ha.withBitmap_self]; rfl, hbitmap, fun i => by simp⟩
  | cons d distances ih =>
    have hd : d < w.getWinSize := hdistances d List.mem_cons_self
    have hdistance : distanceFrom info.startingSeq ((w.winStart + d) % SEQNO_SPACE_SIZE) = d := by
      rw [hstart]
      exact distanceFrom_add hlt (by omega)
    have hrest : ∀ i ∈ distances, i < w.getWinSize := fun i hi => hdistances i (List.mem_cons_of_mem d hi)
    have hcons : Wifi.fillFrom w index h (d :: distances) =
        (if w.bit d then h.setReceivedPacket ((w.winStart + d) % SEQNO_SPACE_SIZE) index else some h).bind
          fun h => Wifi.fillFrom w index h distances := by
      rw [Wifi.fillFrom, List.foldlM_cons, BlockAckWindow.getAt_eq_bit hd]
      rfl
    rw [hcons]
    by_cases hbit : w.bit d = true
    · have hset := At.setReceivedPacket ((w.winStart + d) % SEQNO_SPACE_SIZE) ha (hstart ▸ hlt) (Nat.mod_lt _ (by decide))
        (by rw [hdistance]; omega)
      rw [hdistance] at hset
      rw [if_pos hbit, hset, Option.bind_some]
      obtain ⟨bitmap, hrun, hlength, hbits⟩ := ih (ha.modifyInfo fun info' => { info' with bitmap := setBitAt info.bitmap d }) hstart
        ((length_setBitAt _ _).trans hbitmap) hrest
      refine ⟨bitmap, hrun.trans (congrArg some (withBitmap_withBitmap h index _ bitmap)), hlength, fun i => ?_⟩
      rw [hbits]
      show (bitAt (setBitAt info.bitmap d) i || _) = _
      rw [bitAt_setBitAt (by rw [hbitmap]; omega)]
      by_cases hid : d = i
      · simp [← hid, hbit]
      · simp [hid, Ne.symm hid]
    · rw [if_neg hbit, Option.bind_some]
      obtain ⟨bitmap, hrun, hlength, hbits⟩ := ih ha hstart hbitmap hrest
      refine ⟨bitmap, hrun, hlength, fun i => ?_⟩
      rw [hbits]
      by_cases hid : i = d
      · simp [hid, hbit]
      · simp [hid]

theorem At.fillBlockAckBitmap (ha : h.At index info bitmapLen) (hlt : w.winStart < SEQNO_SPACE_SIZE)
    (hsize : w.getWinSize ≤ bitmapLen * 8) (hlen : bitmapLen * 8 ≤ SEQNO_SPACE_SIZE) :
    ∃ bitmap, Wifi.fillBlockAckBitmap w h index = some (h.modifyInfo index fun info =>
        { info with startingSeq := w.winStart, bitmap := bitmap }) ∧ bitmap.length = bitmapLen ∧
      ∀ i, bitAt bitmap i = (decide (i < w.getWinSize) && w.bit i) := by
  have h1 := ha.modifyInfo fun info' => { info' with startingSeq := w.winStart }
  have h2 := h1.modifyInfo fun info' => { info' with bitmap := List.replicate bitmapLen 0 }
  obtain ⟨bitmap, hrun, hlength, hbits⟩ := h2.fillFrom rfl hlt hsize hlen List.length_replicate (List.range w.getWinSize)
    fun i hi => List.mem_range.mp hi
  have hfill : Wifi.fillBlockAckBitmap w h index = (h.setStartingSequence w.winStart index).bind fun h =>
      (h.resetBitmap index).bind fun h => Wifi.fillFrom w index h (List.range w.getWinSize) := by
    rw [Wifi.fillBlockAckBitmap]
    rcases ha.compressed with hc | hc | hc <;> rw [hc]
  refine ⟨bitmap, ?_, hlength, fun i => ?_⟩
  · rw [hfill, setStartingSequence, ha.info, Option.map_some, Option.bind_some, resetBitmap, h1.info, Option.bind_some,
      h1.bitmapLen, Option.map_some, Option.bind_some, hrun, withBitmap, CtrlBAckResponseHeader.modifyInfo,
      CtrlBAckResponseHeader.modifyInfo, CtrlBAckResponseHeader.modifyInfo, List.modify_modify_eq, List.modify_modify_eq]
    rfl
  · rw [hbits, bitAt_replicate, Bool.false_or, Bool.eq_iff_iff]
    simp

theorem At.reports (ha : h.At index info bitmapLen) (hw : info.Shows w) (hlt : w.winStart < SEQNO_SPACE_SIZE)
    (hsize : w.getWinSize ≤ bitmapLen * 8) (hlen : bitmapLen * 8 ≤ SEQNO_SPACE_SIZE)
    (hcontext : ¬ (h.baType.variant = .multiSta ∧ info.getAckType ∧ info.getTidInfo = 14)) : h.Reports index w := by
  intro seq hseq
  refine ⟨_, ha.isPacketReceived (hw.startingSeq ▸ hlt) hseq hcontext, ?_⟩
  rw [hw.startingSeq, hw.bits, Bool.and_eq_true, Bool.and_eq_true, decide_eq_true_eq, decide_eq_true_eq,
    contains_iff hlt (hsize.trans hlen) hseq]
  exact ⟨fun hand => hand.2, fun hand => ⟨hand.1.trans_le hsize, hand⟩⟩

end Bitmap

/-! ## The control fields -/

theorem and_0x0f (n : ℕ) : n &&& 0x0f = n % 16 := Nat.and_two_pow_sub_one_eq_mod n 4

theorem baControl_tid (tidInfo : ℕ) : tidInfo <<< 12 &&& 0xf <<< 12 = (tidInfo % 16) <<< 12 := by
  rw [← Nat.shiftLeft_and_distrib]
  exact congrArg (· <<< 12) (and_0x0f tidInfo)

theorem baControl_fields : ∀ (policy : Bool) (tid : Fin 16), ∀ v ∈ [0x01, 0x02],
    (((if policy then 0x1 else 0) ||| v <<< 1) ||| tid.val <<< 12) < 2 ^ 16 ∧
    (((((if policy then 0x1 else 0) ||| v <<< 1) ||| tid.val <<< 12) &&& 0x01 = 1) ↔ policy = true) ∧
    (((if policy then 0x1 else 0) ||| v <<< 1) ||| tid.val <<< 12) >>> 1 &&& 0x0f = v ∧
    (((if policy then 0x1 else 0) ||| v <<< 1) ||| tid.val <<< 12) >>> 12 &&& 0x0f = tid.val := by decide

theorem startingSeq_shiftLeft {startingSeq : ℕ} (h : startingSeq < SEQNO_SPACE_SIZE) :
    startingSeq <<< 4 &&& 0xfff0 = startingSeq * 16 := by
  have hmask : startingSeq <<< 4 &&& 0xfff <<< 4 = (startingSeq &&& 0xfff) <<< 4 := Nat.shiftLeft_and_distrib.symm
  have hmod : startingSeq &&& 0xfff = startingSeq % 4096 := Nat.and_two_pow_sub_one_eq_mod startingSeq 12
  show startingSeq <<< 4 &&& 0xfff <<< 4 = startingSeq * 16
  rw [hmask, hmod, Nat.mod_eq_of_lt (show startingSeq < 4096 from h), Nat.shiftLeft_eq]

theorem mul_or_eq_add (startingSeq : ℕ) {c : ℕ} (h : c < 16) : startingSeq * 16 ||| c = startingSeq * 16 + c := by
  have hor := Nat.shiftLeft_add_eq_or_of_lt (show c < 2 ^ 4 from h) startingSeq
  rw [Nat.shiftLeft_eq] at hor
  exact hor.symm

theorem lengthOf_eq (startingSeq c : ℕ) (lengths : List (ℕ × ℕ)) :
    lengthOf (startingSeq * 16 + c) lengths = lengthOf c lengths := by
  have h1 : startingSeq * 16 + c &&& 0x0001 = c &&& 0x0001 := by
    rw [Nat.and_one_is_mod, Nat.and_one_is_mod]
    omega
  have h3 : (startingSeq * 16 + c) >>> 3 &&& 0x0001 = c >>> 3 &&& 0x0001 := by
    rw [Nat.and_one_is_mod, Nat.and_one_is_mod, Nat.shiftRight_eq_div_pow, Nat.shiftRight_eq_div_pow]
    omega
  have h2 : (startingSeq * 16 + c) >>> 1 &&& 0x0003 = c >>> 1 &&& 0x0003 := by
    rw [show (0x0003 : ℕ) = 2 ^ 2 - 1 from rfl, Nat.and_two_pow_sub_one_eq_mod, Nat.and_two_pow_sub_one_eq_mod,
      Nat.shiftRight_eq_div_pow, Nat.shiftRight_eq_div_pow]
    omega
  rw [lengthOf, lengthOf, h1, h2, h3]

theorem startingSeq_shiftRight {startingSeq c : ℕ} (h : startingSeq < SEQNO_SPACE_SIZE) (hc : c < 16) :
    (startingSeq * 16 + c) >>> 4 &&& 0x0fff = startingSeq := by
  rw [SEQNO_SPACE_SIZE] at h
  rw [show (0x0fff : ℕ) = 2 ^ 12 - 1 from rfl, Nat.and_two_pow_sub_one_eq_mod, Nat.shiftRight_eq_div_pow]
  omega

/-! ## Round trips -/

structure Single (h : CtrlBAckResponseHeader) (info : BaInfoInstance) (bitmapLen : ℕ) : Prop where
  variant : h.baType = ⟨.compressed, [bitmapLen]⟩ ∧ (bitmapLen = 8 ∨ bitmapLen = 32) ∨
    h.baType = ⟨.extendedCompressed, [bitmapLen]⟩ ∧ bitmapLen = 8
  baInfo : h.baInfo = [info]
  startingSeq : info.startingSeq < SEQNO_SPACE_SIZE
  bitmap : info.bitmap.length = bitmapLen

section Single

variable {h : CtrlBAckResponseHeader} {info : BaInfoInstance} {bitmapLen : ℕ}

/-- What arrives has the fields that are in the bytes. -/
def received (h : CtrlBAckResponseHeader) (info : BaInfoInstance) : CtrlBAckResponseHeader where
  baAckPolicy := h.baAckPolicy
  baType := h.baType
  tidInfo := h.tidInfo % 16
  baInfo := [{ startingSeq := info.startingSeq, bitmap := info.bitmap }]

theorem setBaControl_getBaControl (h0 : CtrlBAckResponseHeader)
    (hv : h.baType.variant = .compressed ∨ h.baType.variant = .extendedCompressed) : h.getBaControl < 2 ^ 16 ∧
      h0.setBaControl h.getBaControl = some ⟨h.baAckPolicy, .ofVariant h.baType.variant, h.tidInfo % 16,
        [{ bitmap := List.replicate 8 0 }]⟩ := by
  have htid : h.tidInfo % 16 < 16 := Nat.mod_lt _ (by decide)
  have hfields := baControl_fields h.baAckPolicy ⟨h.tidInfo % 16, htid⟩
  rcases hv with hv | hv
  · obtain ⟨hlt, hpolicy, hvariant, htidInfo⟩ := hfields 0x02 (by decide)
    have hba : h.getBaControl = ((if h.baAckPolicy then 0x1 else 0) ||| 0x02 <<< 1) ||| (h.tidInfo % 16) <<< 12 := by
      rw [getBaControl, hv, ← baControl_tid]
      rfl
    have hvariantOf : variantOf h.getBaControl = some .compressed := by
      rw [hba, variantOf, hvariant]
      rfl
    refine ⟨hba ▸ hlt, ?_⟩
    rw [setBaControl, hvariantOf, hv, Option.map_some, Option.some_inj]
    simp only [hba, hpolicy, htidInfo]
    simp [setType, BlockAckType.ofVariant]
  · obtain ⟨hlt, hpolicy, hvariant, htidInfo⟩ := hfields 0x01 (by decide)
    have hba : h.getBaControl = ((if h.baAckPolicy then 0x1 else 0) ||| 0x01 <<< 1) ||| (h.tidInfo % 16) <<< 12 := by
      rw [getBaControl, hv, ← baControl_tid]
      rfl
    have hvariantOf : variantOf h.getBaControl = some .extendedCompressed := by
      rw [hba, variantOf, hvariant]
      rfl
    refine ⟨hba ▸ hlt, ?_⟩
    rw [setBaControl, hvariantOf, hv, Option.map_some, Option.some_inj]
    simp only [hba, hpolicy, htidInfo]
    simp [setType, BlockAckType.ofVariant]

theorem Single.startingSequenceControl (hs : h.Single info bitmapLen) : ∃ control, h.getStartingSequenceControl 0 = some control ∧
    control < 2 ^ 16 ∧ ∀ policy tidInfo, setStartingSequenceControl
        ⟨policy, .ofVariant h.baType.variant, tidInfo, [{ bitmap := List.replicate 8 0 }]⟩ control 0 =
      some ⟨policy, h.baType, tidInfo, [{ startingSeq := info.startingSeq, bitmap := List.replicate bitmapLen 0 }]⟩ := by
  have hstart := startingSeq_shiftLeft hs.startingSeq
  have hlt : info.startingSeq < 4096 := hs.startingSeq
  have hinfo : h.info? 0 = some info := by rw [info?, if_pos (.inr rfl), hs.baInfo, List.getElem?_cons_zero]
  have hback := fun c hc => startingSeq_shiftRight (c := c) hs.startingSeq hc
  rcases hs.variant with ⟨hv, rfl | rfl⟩ | ⟨hv, rfl⟩
  · refine ⟨info.startingSeq * 16 + 0, ?_, by omega, fun policy tidInfo => ?_⟩
    · rw [getStartingSequenceControl, hinfo, hv, Option.bind_some, hstart]
      rfl
    · rw [setStartingSequenceControl, hv]
      simp only [BlockAckType.ofVariant, lengthOf_eq, hback 0 (by decide)]
      rfl
  · refine ⟨info.startingSeq * 16 + 4, ?_, by omega, fun policy tidInfo => ?_⟩
    · rw [getStartingSequenceControl, hinfo, hv, Option.bind_some, hstart, ← mul_or_eq_add _ (by decide)]
      rfl
    · rw [setStartingSequenceControl, hv]
      simp only [BlockAckType.ofVariant, lengthOf_eq, hback 4 (by decide)]
      rfl
  · refine ⟨info.startingSeq * 16 + 0, ?_, by omega, fun policy tidInfo => ?_⟩
    · rw [getStartingSequenceControl, hinfo, hv, Option.bind_some, hstart]
      rfl
    · rw [setStartingSequenceControl, hv]
      simp only [BlockAckType.ofVariant, hback 0 (by decide)]
      rfl

theorem Single.roundTrip (hs : h.Single info bitmapLen) : ∃ bytes, h.serialize = some bytes ∧ bytes.length = h.getSerializedSize ∧
    ∀ (h0 : CtrlBAckResponseHeader) rest, h0.deserialize (bytes ++ rest) = some (h.received info, rest) := by
  obtain ⟨control, hcontrol, hcontrolLt, hset⟩ := hs.startingSequenceControl
  have hinfo : h.info? 0 = some info := by rw [info?, if_pos (.inr rfl), hs.baInfo, List.getElem?_cons_zero]
  have hv : h.baType.variant = .compressed ∨ h.baType.variant = .extendedCompressed := by
    rcases hs.variant with ⟨hv, -⟩ | ⟨hv, -⟩
    · exact .inl (by rw [hv])
    · exact .inr (by rw [hv])
  have hlen : h.baType.bitmapLen = [bitmapLen] := by rcases hs.variant with ⟨hv, -⟩ | ⟨hv, -⟩ <;> rw [hv]
  refine ⟨le16 h.getBaControl ++ (le16 control ++ info.bitmap), ?_, ?_, fun h0 rest => ?_⟩
  · rw [serialize, hcontrol, hinfo]
    rcases hv with hv | hv <;> rw [hv] <;> rfl
  · rw [getSerializedSize, hlen, List.length_append, List.length_append, length_le16, length_le16, hs.bitmap]
    rcases hv with hv | hv <;> rw [hv] <;> rfl
  · obtain ⟨hlt, hba⟩ := setBaControl_getBaControl h0 hv
    have hread : deserialize h0 (le16 h.getBaControl ++ (le16 control ++ info.bitmap) ++ rest) =
        deserializeBitmap ⟨h.baAckPolicy, h.baType, h.tidInfo % 16,
          [{ startingSeq := info.startingSeq, bitmap := List.replicate bitmapLen 0 }]⟩ 0 (info.bitmap ++ rest) := by
      rw [deserialize, List.append_assoc, readLe16_le16 hlt, Option.bind_some, hba, Option.bind_some, List.append_assoc]
      rcases hv with hv | hv <;> rw [hv] at hset ⊢ <;>
        simp only [BlockAckType.ofVariant, readLe16_le16 hcontrolLt, Option.bind_some] <;>
        exact congrArg (fun o => Option.bind o _) (hset _ _)
    rw [hread, deserializeBitmap, info?, if_pos (.inr rfl), hlen]
    show (takeBytes bitmapLen (info.bitmap ++ rest)).map _ = _
    rw [takeBytes_append hs.bitmap, Option.map_some, received]
    simp [CtrlBAckResponseHeader.modifyInfo]

end Single

/-! ## Many entries -/

instance (info : BaInfoInstance) : Decidable info.BlockAckContext := inferInstanceAs (Decidable (_ ∧ _))

/-- The bytes of an entry. -/
def encodeInfo (bitmapLen : ℕ) (info : BaInfoInstance) : List UInt8 :=
  if info.getAid11 = 2045 then le16 info.aidTidInfo ++ List.replicate 4 0 ++ info.ra.octets
  else if info.BlockAckContext then
    le16 info.aidTidInfo ++ le16 (info.startingSeq * 16 + fragmentBits bitmapLen) ++ info.bitmap
  else le16 info.aidTidInfo

/-- What arrives of an entry. -/
def receivedInfo (info : BaInfoInstance) : BaInfoInstance :=
  if info.getAid11 = 2045 then { aidTidInfo := info.aidTidInfo, ra := info.ra }
  else if info.BlockAckContext then { aidTidInfo := info.aidTidInfo, startingSeq := info.startingSeq, bitmap := info.bitmap }
  else { aidTidInfo := info.aidTidInfo }

structure MultiSta (h : CtrlBAckResponseHeader) : Prop where
  variant : h.baType.variant = .multiSta
  length : h.baType.bitmapLen.length = h.baInfo.length
  proper : ∀ e ∈ h.baType.bitmapLen.zip h.baInfo, BaInfoInstance.Proper e.1 e.2

section MultiSta

variable {h : CtrlBAckResponseHeader} {index bitmapLen : ℕ} {info : BaInfoInstance}

theorem length_encodeInfo (hp : info.Proper bitmapLen) :
    (encodeInfo bitmapLen info).length = 2 + (if bitmapLen > 0 then 2 else 0) + bitmapLen := by
  rw [encodeInfo]
  by_cases haid : info.getAid11 = 2045
  · rw [if_pos haid, List.length_append, List.length_append, length_le16, List.length_replicate, info.ra.length_octets,
      hp.unassociated haid]
    rfl
  · rw [if_neg haid]
    by_cases hcontext : info.BlockAckContext
    · have hlens := hp.context haid hcontext
      rw [if_pos hcontext, List.length_append, List.length_append, length_le16, length_le16, hp.bitmap haid, if_pos (by omega)]
    · rw [if_neg hcontext, hp.noContext haid hcontext, length_le16]
      rfl

theorem fragmentBits_lt (bitmapLen : ℕ) : fragmentBits bitmapLen < 16 := by
  rw [fragmentBits]
  split_ifs <;> decide

/-- The bytes are those of the code. -/
theorem serializeInfo_eq (hp : info.Proper bitmapLen) (hvariant : h.baType.variant = .multiSta)
    (hlength : h.baInfo.length = h.baType.bitmapLen.length) (hinfo : h.baInfo[index]? = some info)
    (hlen : h.baType.bitmapLen[index]? = some bitmapLen) : h.serializeInfo index info = some (encodeInfo bitmapLen info) := by
  rw [serializeInfo, encodeInfo]
  by_cases haid : info.getAid11 = 2045
  · rw [if_neg (not_not.mpr haid), if_pos haid]
  · rw [if_pos haid, if_neg haid]
    by_cases hcontext : info.BlockAckContext
    · have hlens := hp.context haid hcontext
      have hpos : 0 < info.bitmap.length := by
        rw [hp.bitmap haid]
        omega
      have hcontrol : h.getStartingSequenceControl index = some (info.startingSeq * 16 + fragmentBits bitmapLen) := by
        rw [getStartingSequenceControl, info?, if_pos (.inl hvariant), hinfo, hvariant, Option.bind_some,
          startingSeq_shiftLeft hp.startingSeq]
        show (if h.baInfo.length = h.baType.bitmapLen.length ∧ 0 < info.bitmap.length then _ else none) = _
        rw [if_pos ⟨hlength, hpos⟩, hlen, Option.map_some, mul_or_eq_add _ (fragmentBits_lt bitmapLen)]
      rw [if_pos hpos, if_pos hcontext, hcontrol]
      rfl
    · have hzero : ¬ info.bitmap.length > 0 := by
        rw [hp.bitmap haid, hp.noContext haid hcontext]
        omega
      rw [if_neg hzero, if_neg hcontext]

theorem modify_concat {α : Type} (l : List α) (a : α) (f : α → α) : (l ++ [a]).modify l.length f = l ++ [f a] := by
  induction l with
  | nil => rfl
  | cons b l ih => rw [List.cons_append, List.length_cons, List.modify_succ_cons, ih, List.cons_append]

theorem lengthOf_fragmentBits (hlen : bitmapLen = 4 ∨ bitmapLen = 8 ∨ bitmapLen = 16 ∨ bitmapLen = 32) :
    lengthOf (fragmentBits bitmapLen) [(0, 8), (1, 16), (2, 32), (3, 4)] = some bitmapLen := by
  rcases hlen with rfl | rfl | rfl | rfl <;> decide

theorem deserializeInfo_encodeInfo (hp : info.Proper bitmapLen) (hvariant : h.baType.variant = .multiSta)
    (hinfo : h.baInfo.length = index) (hlen : h.baType.bitmapLen.length = index) (rest : List UInt8) :
    h.deserializeInfo index (encodeInfo bitmapLen info ++ rest) =
      some ({ h with
        baInfo := h.baInfo ++ [receivedInfo info]
        baType := ⟨.multiSta, h.baType.bitmapLen ++ [bitmapLen]⟩ }, rest) := by
  have hlast : (h.baInfo ++ [({ aidTidInfo := info.aidTidInfo } : BaInfoInstance)])[index]? =
      some { aidTidInfo := info.aidTidInfo } := by
    rw [← hinfo, List.getElem?_concat_length]
  have hset : ∀ n : ℕ, (h.baType.bitmapLen ++ [0]).set index n = h.baType.bitmapLen ++ [n] := fun n => by
    rw [← hlen, List.set_append_right _ _ le_rfl, Nat.sub_self]
    rfl
  have hmodify : ∀ (i : BaInfoInstance) f, (h.baInfo ++ [i]).modify index f = h.baInfo ++ [f i] := fun i f => by
    rw [← hinfo, modify_concat]
  rw [encodeInfo, receivedInfo, deserializeInfo]
  by_cases haid : info.getAid11 = 2045
  · rw [if_pos haid, if_pos haid, List.append_assoc, List.append_assoc, readLe16_le16 hp.aidTidInfo, Option.bind_some]
    have haid' : ({ aidTidInfo := info.aidTidInfo } : BaInfoInstance).getAid11 = 2045 := haid
    have hra : readMac48Address (info.ra.octets ++ rest) = some (info.ra, rest) := by
      rw [readMac48Address, takeBytes_append info.ra.length_octets]
      exact dif_pos info.ra.length_octets
    simp only [haid', ne_eq, not_true_eq_false, if_false]
    rw [takeBytes_append (List.length_replicate), Option.bind_some, hra, Option.map_some, hset]
    simp only [CtrlBAckResponseHeader.modifyInfo, hmodify, hvariant, hp.unassociated haid]
  · rw [if_neg haid, if_neg haid]
    have haid' : ({ aidTidInfo := info.aidTidInfo } : BaInfoInstance).getAid11 ≠ 2045 := haid
    by_cases hcontext : info.BlockAckContext
    · rw [if_pos hcontext, if_pos hcontext, List.append_assoc, List.append_assoc, readLe16_le16 hp.aidTidInfo, Option.bind_some]
      have hcontext' : (!({ aidTidInfo := info.aidTidInfo } : BaInfoInstance).getAckType) = true ∧
          ({ aidTidInfo := info.aidTidInfo } : BaInfoInstance).getTidInfo < 8 := by
        obtain ⟨hack, htid⟩ := hcontext
        exact ⟨by rw [Bool.not_eq_true']; exact hack, htid⟩
      have hcontrolLt : info.startingSeq * 16 + fragmentBits bitmapLen < 2 ^ 16 := by
        have hlt : info.startingSeq < 4096 := hp.startingSeq
        have := fragmentBits_lt bitmapLen
        omega
      rw [if_pos haid', if_pos hcontext', readLe16_le16 hcontrolLt, Option.bind_some, setStartingSequenceControl, info?,
        if_pos (.inl hvariant)]
      simp only [hlast, Option.bind_some, hvariant, lengthOf_eq, lengthOf_fragmentBits (hp.context haid hcontext), Option.map_some,
        hset, CtrlBAckResponseHeader.modifyInfo, hmodify, startingSeq_shiftRight hp.startingSeq (fragmentBits_lt bitmapLen)]
      have hlast' : ∀ i : BaInfoInstance, (h.baInfo ++ [i])[index]? = some i := fun i => by rw [← hinfo, List.getElem?_concat_length]
      have hlen' : (h.baType.bitmapLen ++ [bitmapLen])[index]? = some bitmapLen := by rw [← hlen, List.getElem?_concat_length]
      simp only [deserializeBitmap, info?, true_or, if_true, hlast', hlen', Option.bind_some, takeBytes_append (hp.bitmap haid),
        Option.map_some, CtrlBAckResponseHeader.modifyInfo, hmodify, List.drop_replicate, Nat.sub_self, List.replicate_zero,
        List.append_nil]
    · rw [if_neg hcontext, if_neg hcontext, readLe16_le16 hp.aidTidInfo, Option.bind_some]
      have hcontext' : ¬ ((!({ aidTidInfo := info.aidTidInfo } : BaInfoInstance).getAckType) = true ∧
          ({ aidTidInfo := info.aidTidInfo } : BaInfoInstance).getTidInfo < 8) := by
        rintro ⟨hack, htid⟩
        exact hcontext ⟨by rw [Bool.not_eq_true'] at hack; exact hack, htid⟩
      rw [if_pos haid', if_neg hcontext', hvariant, hp.noContext haid hcontext]

theorem MultiSta.properAt (hm : h.MultiSta) (hinfo : h.baInfo[index]? = some info)
    (hlen : h.baType.bitmapLen[index]? = some bitmapLen) : info.Proper bitmapLen :=
  hm.proper (bitmapLen, info) (List.mem_of_getElem? (List.getElem?_zip_eq_some.mpr ⟨hlen, hinfo⟩))

variable {infos : List BaInfoInstance} {lens : List ℕ}

theorem serializeInfos_eq (hm : h.MultiSta) (hinfos : h.baInfo.drop index = infos)
    (hlens : h.baType.bitmapLen.drop index = lens) :
    h.serializeInfos index infos = some (List.zipWith encodeInfo lens infos).flatten := by
  induction infos generalizing index lens with
  | nil =>
    rw [List.zipWith_nil_right]
    rfl
  | cons info infos ih =>
    have hinfo : h.baInfo[index]? = some info := by
      rw [← Nat.add_zero index, ← List.getElem?_drop, hinfos, List.getElem?_cons_zero]
    have hlt : index < h.baType.bitmapLen.length := by
      rw [hm.length]
      exact (List.getElem?_eq_some_iff.mp hinfo).1
    have hlen : h.baType.bitmapLen[index]? = some h.baType.bitmapLen[index] := List.getElem?_eq_getElem hlt
    have hinfos' : h.baInfo.drop (index + 1) = infos := by rw [← List.tail_drop, hinfos, List.tail_cons]
    rw [List.drop_eq_getElem_cons hlt] at hlens
    rw [serializeInfos, serializeInfo_eq (hm.properAt hinfo hlen) hm.variant hm.length.symm hinfo hlen, Option.bind_some,
      ih hinfos' rfl, Option.map_some, ← hlens, List.zipWith_cons_cons, List.flatten_cons]

theorem deserializeInfos_eq (hlength : lens.length = infos.length)
    (hproper : ∀ e ∈ lens.zip infos, BaInfoInstance.Proper e.1 e.2) (hvariant : h.baType.variant = .multiSta)
    (hinfo : h.baInfo.length = index) (hlen : h.baType.bitmapLen.length = index) {fuel : ℕ} (hfuel : infos.length < fuel) :
    deserializeInfos fuel h index (List.zipWith encodeInfo lens infos).flatten =
      some ({ h with
        baInfo := h.baInfo ++ infos.map receivedInfo
        baType := ⟨.multiSta, h.baType.bitmapLen ++ lens⟩ }, []) := by
  induction infos generalizing h index lens fuel with
  | nil =>
    obtain ⟨k, rfl⟩ := Nat.exists_eq_succ_of_ne_zero (Nat.ne_zero_of_lt hfuel)
    rw [List.length_eq_zero_iff.mp hlength]
    obtain ⟨policy, ⟨variant, bitmapLen⟩, tidInfo, baInfo⟩ := h
    dsimp only at hvariant
    subst hvariant
    simp [deserializeInfos]
  | cons info infos ih =>
    obtain ⟨k, rfl⟩ := Nat.exists_eq_succ_of_ne_zero (Nat.ne_zero_of_lt hfuel)
    obtain ⟨bitmapLen, lens, rfl⟩ := List.exists_cons_of_length_eq_add_one hlength
    have hp : info.Proper bitmapLen := hproper (bitmapLen, info) List.mem_cons_self
    have hpos : (encodeInfo bitmapLen info ++ (List.zipWith encodeInfo lens infos).flatten).length > 0 := by
      rw [List.length_append, length_encodeInfo hp]
      omega
    rw [List.zipWith_cons_cons, List.flatten_cons, deserializeInfos, if_pos hpos, deserializeInfo_encodeInfo hp hvariant hinfo hlen,
      Option.bind_some]
    rw [ih (by simpa using hlength) (fun e he => hproper e (List.mem_cons_of_mem _ he)) rfl (by simp [hinfo]) (by simp [hlen])
      (by simpa using hfuel)]
    simp

theorem length_encodeInfos (hlength : lens.length = infos.length)
    (hproper : ∀ e ∈ lens.zip infos, BaInfoInstance.Proper e.1 e.2) :
    (List.zipWith encodeInfo lens infos).flatten.length =
        (lens.map fun bitmapLen => 2 + (if bitmapLen > 0 then 2 else 0) + bitmapLen).sum ∧
      infos.length ≤ (List.zipWith encodeInfo lens infos).flatten.length := by
  induction infos generalizing lens with
  | nil =>
    rw [List.length_eq_zero_iff.mp hlength]
    exact ⟨rfl, le_rfl⟩
  | cons info infos ih =>
    obtain ⟨bitmapLen, lens, rfl⟩ := List.exists_cons_of_length_eq_add_one hlength
    have hp : info.Proper bitmapLen := hproper (bitmapLen, info) List.mem_cons_self
    obtain ⟨hsum, hle⟩ := ih (Nat.succ_injective hlength) fun e he => hproper e (List.mem_cons_of_mem _ he)
    rw [List.zipWith_cons_cons, List.flatten_cons, List.length_append, length_encodeInfo hp, List.map_cons, List.sum_cons,
      List.length_cons]
    omega

theorem getBaControl_multiSta (hm : h.MultiSta) (h0 : CtrlBAckResponseHeader) : h.getBaControl < 2 ^ 16 ∧
    h0.setBaControl h.getBaControl = some { h0 with baAckPolicy := h.baAckPolicy, baType := ⟨.multiSta, []⟩, baInfo := [] } := by
  have hba : h.getBaControl = (if h.baAckPolicy then 0x1 else 0) ||| 0x0b <<< 1 := by
    rw [getBaControl, hm.variant]
    rfl
  rw [hba]
  cases h.baAckPolicy <;> exact ⟨by decide, rfl⟩

/-- **A Multi-STA Block Ack arrives with its entries.** -/
theorem MultiSta.roundTrip (hm : h.MultiSta) : ∃ bytes, h.serialize = some bytes ∧ bytes.length = h.getSerializedSize ∧
    ∀ h0 : CtrlBAckResponseHeader, h0.deserialize bytes =
      some ({ h0 with baAckPolicy := h.baAckPolicy, baType := h.baType, baInfo := h.baInfo.map receivedInfo }, []) := by
  refine ⟨le16 h.getBaControl ++ (List.zipWith encodeInfo h.baType.bitmapLen h.baInfo).flatten, ?_, ?_, fun h0 => ?_⟩
  · rw [serialize, hm.variant]
    show (h.serializeInfos 0 h.baInfo).map _ = _
    rw [serializeInfos_eq hm List.drop_zero List.drop_zero, Option.map_some]
  · rw [List.length_append, length_le16, (length_encodeInfos hm.length hm.proper).1, getSerializedSize, hm.variant]
  · obtain ⟨hlt, hba⟩ := getBaControl_multiSta hm h0
    have hfuel := (length_encodeInfos hm.length hm.proper).2
    rw [deserialize, readLe16_le16 hlt, Option.bind_some, hba, Option.bind_some]
    have hall := deserializeInfos_eq
      (h := { h0 with baAckPolicy := h.baAckPolicy, baType := ⟨.multiSta, []⟩, baInfo := [] })
      hm.length hm.proper rfl rfl rfl (Nat.lt_succ_of_le hfuel)
    have htype : h.baType = ⟨.multiSta, h.baType.bitmapLen⟩ := by rw [← hm.variant]
    rw [htype]
    exact hall

end MultiSta

/-! ## From the scoreboards to the header that arrives -/

/-- An entry that the recipient fills in. -/
def HasBitmap (h : CtrlBAckResponseHeader) (index : ℕ) : Prop :=
  ∃ info, h.baInfo[index]? = some info ∧ info.getAid11 ≠ 2045 ∧ info.BlockAckContext

instance (h : CtrlBAckResponseHeader) (index : ℕ) : Decidable (h.HasBitmap index) :=
  decidable_of_iff (h.baInfo[index]?.any fun info => info.getAid11 ≠ 2045 ∧ info.BlockAckContext) (by
    rw [Option.any_eq_true, HasBitmap]
    simp)

def fillAll (scoreboards : ℕ → BlockAckWindow) (h : CtrlBAckResponseHeader) : Option CtrlBAckResponseHeader :=
  (List.range h.baInfo.length).foldlM (fun h index =>
    if h.HasBitmap index then fillBlockAckBitmap (scoreboards index) h index else some h) h

section FillAll

variable {h g : CtrlBAckResponseHeader} {index bitmapLen : ℕ} {info : BaInfoInstance} {scoreboards : ℕ → BlockAckWindow}

structure Filled (scoreboards : ℕ → BlockAckWindow) (h g : CtrlBAckResponseHeader) (done : List ℕ) : Prop where
  baAckPolicy : g.baAckPolicy = h.baAckPolicy
  tidInfo : g.tidInfo = h.tidInfo
  baType : g.baType = h.baType
  length : g.baInfo.length = h.baInfo.length
  proper : ∀ e ∈ g.baType.bitmapLen.zip g.baInfo, BaInfoInstance.Proper e.1 e.2
  aidTidInfo : ∀ i : ℕ, g.baInfo[i]?.map BaInfoInstance.aidTidInfo = h.baInfo[i]?.map BaInfoInstance.aidTidInfo
  shows : ∀ i ∈ done, ∀ info, g.baInfo[i]? = some info → h.HasBitmap i → info.Shows (scoreboards i)

theorem HasBitmap.of_aidTidInfo (ha : g.baInfo[index]?.map BaInfoInstance.aidTidInfo = h.baInfo[index]?.map BaInfoInstance.aidTidInfo)
    (hg : g.HasBitmap index) : h.HasBitmap index := by
  obtain ⟨info, hinfo, haid, hcontext⟩ := hg
  rw [hinfo, Option.map_some] at ha
  obtain ⟨info', hinfo', heq⟩ := Option.map_eq_some_iff.mp ha.symm
  refine ⟨info', hinfo', ?_, ?_⟩
  · rwa [BaInfoInstance.getAid11, heq]
  · rwa [BaInfoInstance.BlockAckContext, BaInfoInstance.getAckType, BaInfoInstance.getTidInfo, heq]

variable {done : List ℕ}

theorem Filled.hasBitmap (hf : Filled scoreboards h g done) (index : ℕ) : g.HasBitmap index ↔ h.HasBitmap index :=
  ⟨.of_aidTidInfo (hf.aidTidInfo index), .of_aidTidInfo (hf.aidTidInfo index).symm⟩

theorem Filled.fill (hf : Filled scoreboards h g done) (hvariant : g.baType.variant = .multiSta)
    (hlength : g.baType.bitmapLen.length = g.baInfo.length) (hb : g.HasBitmap index)
    (hlt : (scoreboards index).winStart < SEQNO_SPACE_SIZE)
    (hsize : ∀ bitmapLen, g.baType.bitmapLen[index]? = some bitmapLen → (scoreboards index).getWinSize ≤ bitmapLen * 8) :
    ∃ g', fillBlockAckBitmap (scoreboards index) g index = some g' ∧ Filled scoreboards h g' (index :: done) := by
  obtain ⟨info, hinfo, haid, hcontext⟩ := hb
  have hindex : index < g.baType.bitmapLen.length := by
    rw [hlength]
    exact (List.getElem?_eq_some_iff.mp hinfo).1
  have hlen := List.getElem?_eq_getElem hindex
  have hproper := MultiSta.properAt ⟨hvariant, hlength, hf.proper⟩ hinfo hlen
  have hlens := hproper.context haid hcontext
  have hat : g.At index info g.baType.bitmapLen[index] :=
    ⟨.inr (.inr hvariant), by rw [info?, if_pos (.inl hvariant), hinfo], hlen⟩
  obtain ⟨bitmap, hrun, hbitmap, hbits⟩ := hat.fillBlockAckBitmap hlt (hsize _ hlen) (by rw [SEQNO_SPACE_SIZE]; omega)
  refine ⟨_, hrun, hf.baAckPolicy, hf.tidInfo, hf.baType, ?_, fun e he => ?_, fun i => ?_, fun i hi info' hinfo' hib => ?_⟩
  · rw [CtrlBAckResponseHeader.modifyInfo, List.length_modify]
    exact hf.length
  · obtain ⟨i, hi⟩ := List.mem_iff_getElem?.mp he
    obtain ⟨hlen', hinfo'⟩ := List.getElem?_zip_eq_some.mp hi
    change (g.baInfo.modify index _)[i]? = some e.2 at hinfo'
    rw [List.getElem?_modify] at hinfo'
    obtain ⟨info', hinfo', heq⟩ := Option.map_eq_some_iff.mp hinfo'
    have hp := MultiSta.properAt ⟨hvariant, hlength, hf.proper⟩ hinfo' hlen'
    by_cases hii : index = i
    · subst hii
      rw [if_pos rfl] at heq
      rw [hinfo] at hinfo'
      obtain rfl := Option.some_inj.mp hinfo'
      have hsame : e.1 = g.baType.bitmapLen[index] := Option.some_inj.mp (hlen'.symm.trans hlen)
      rw [← heq]
      exact ⟨hp.aidTidInfo, hlt, hp.unassociated, fun _ => hbitmap.trans hsame.symm, hp.context, hp.noContext⟩
    · rw [if_neg hii] at heq
      rwa [← heq]
  · rw [← hf.aidTidInfo i]
    change (g.baInfo.modify index _)[i]?.map _ = _
    rw [List.getElem?_modify]
    cases g.baInfo[i]? with
    | none => rfl
    | some info' => by_cases hii : index = i <;> simp [hii]
  · change (g.baInfo.modify index _)[i]? = some info' at hinfo'
    rw [List.getElem?_modify] at hinfo'
    obtain ⟨old, hold, heq⟩ := Option.map_eq_some_iff.mp hinfo'
    by_cases hii : index = i
    · subst hii
      rw [if_pos rfl] at heq
      rw [← heq]
      exact ⟨rfl, hbits⟩
    · rw [if_neg hii] at heq
      rw [← heq]
      exact hf.shows i ((List.mem_cons.mp hi).resolve_left fun h => hii h.symm) old hold hib

theorem MultiSta.fillAll (hm : h.MultiSta) (hscoreboards : ∀ (i bitmapLen : ℕ), h.HasBitmap i → h.baType.bitmapLen[i]? = some bitmapLen →
      (scoreboards i).winStart < SEQNO_SPACE_SIZE ∧ (scoreboards i).getWinSize ≤ bitmapLen * 8) (indices : List ℕ)
    (hf : Filled scoreboards h g done) :
    ∃ g', indices.foldlM (fun g index =>
        if g.HasBitmap index then fillBlockAckBitmap (scoreboards index) g index else some g) g = some g' ∧
      Filled scoreboards h g' (indices.reverse ++ done) := by
  induction indices generalizing g done with
  | nil => exact ⟨g, rfl, hf⟩
  | cons index indices ih =>
    have hstep : ∃ g', (if g.HasBitmap index then fillBlockAckBitmap (scoreboards index) g index else some g) = some g' ∧
        Filled scoreboards h g' (index :: done) := by
      by_cases hb : g.HasBitmap index
      · rw [if_pos hb]
        have hb' := (hf.hasBitmap index).mp hb
        obtain ⟨info, hinfo, -⟩ := id hb'
        have hindex : index < h.baType.bitmapLen.length := by
          rw [hm.length]
          exact (List.getElem?_eq_some_iff.mp hinfo).1
        refine hf.fill (by rw [hf.baType, hm.variant]) (by rw [hf.baType, hm.length, hf.length]) hb
          (hscoreboards index _ hb' (List.getElem?_eq_getElem hindex)).1 fun bitmapLen hlen => ?_
        rw [hf.baType] at hlen
        exact (hscoreboards index bitmapLen hb' hlen).2
      · rw [if_neg hb]
        refine ⟨g, rfl, hf.baAckPolicy, hf.tidInfo, hf.baType, hf.length, hf.proper, hf.aidTidInfo, fun i hi info hinfo hib => ?_⟩
        rcases List.mem_cons.mp hi with rfl | hi
        · exact absurd ((hf.hasBitmap i).mpr hib) hb
        · exact hf.shows i hi info hinfo hib
    obtain ⟨g1, hg1, hf1⟩ := hstep
    obtain ⟨g2, hg2, hf2⟩ := ih hf1
    refine ⟨g2, ?_, by simpa using hf2⟩
    rw [List.foldlM_cons, hg1]
    exact hg2

theorem MultiSta.unfilled (hm : h.MultiSta) : Filled scoreboards h h [] :=
  ⟨rfl, rfl, rfl, rfl, hm.proper, fun _ => rfl, fun _ hi => absurd hi List.not_mem_nil⟩

theorem aidTidInfo_receivedInfo (info : BaInfoInstance) : (receivedInfo info).aidTidInfo = info.aidTidInfo := by
  rw [receivedInfo]
  split_ifs <;> rfl

theorem Filled.receivedInfo_aidTidInfo (hf : Filled scoreboards h g done) :
    (g.baInfo.map receivedInfo).map BaInfoInstance.aidTidInfo = h.baInfo.map BaInfoInstance.aidTidInfo := by
  rw [List.map_map]
  apply List.ext_getElem?
  intro i
  rw [List.getElem?_map, List.getElem?_map, ← hf.aidTidInfo i]
  congr 1
  funext info
  exact aidTidInfo_receivedInfo info

end FillAll

/-- A header arrives as another one: the bytes are as many as its size says, and all of them are read. -/
def Arrives (h h0 h2 : CtrlBAckResponseHeader) : Prop :=
  ∃ bytes, h.serialize = some bytes ∧ bytes.length = h.getSerializedSize ∧ h0.deserialize bytes = some (h2, []) ∧
    bytes.length = h2.getSerializedSize

def HasOneBitmap (h : CtrlBAckResponseHeader) (bitmapLen : ℕ) : Prop :=
  (h.baType = ⟨.compressed, [bitmapLen]⟩ ∧ (bitmapLen = 8 ∨ bitmapLen = 32) ∨ h.baType = ⟨.extendedCompressed, [bitmapLen]⟩ ∧ bitmapLen = 8) ∧
    ∃ info, h.baInfo = [info]

theorem HasOneBitmap.faithful {h : CtrlBAckResponseHeader} {w : BlockAckWindow} {bitmapLen : ℕ} (hone : h.HasOneBitmap bitmapLen)
    (h0 : CtrlBAckResponseHeader) (hlt : w.winStart < SEQNO_SPACE_SIZE) (hsize : w.getWinSize ≤ bitmapLen * 8) :
    ∃ h1 h2, fillBlockAckBitmap w h 0 = some h1 ∧ h1.Arrives h0 h2 ∧ h2.Reports 0 w := by
  obtain ⟨htype, info, hinfo⟩ := hone
  have hlen : h.baType.bitmapLen = [bitmapLen] := by rcases htype with ⟨hv, -⟩ | ⟨hv, -⟩ <;> rw [hv]
  have hv : h.baType.variant = .compressed ∨ h.baType.variant = .extendedCompressed := by
    rcases htype with ⟨hv, -⟩ | ⟨hv, -⟩
    · exact .inl (by rw [hv])
    · exact .inr (by rw [hv])
  have hle : bitmapLen * 8 ≤ SEQNO_SPACE_SIZE := by
    rw [SEQNO_SPACE_SIZE]
    omega
  have hat : h.At 0 info bitmapLen := by
    refine ⟨hv.imp_right .inl, ?_, by rw [hlen]; rfl⟩
    rw [info?, if_pos (.inr rfl), hinfo]
    rfl
  obtain ⟨bitmap, hrun, hbitmap, hbits⟩ := hat.fillBlockAckBitmap hlt hsize hle
  have hs : Single (h.modifyInfo 0 fun info => { info with startingSeq := w.winStart, bitmap := bitmap })
      { info with startingSeq := w.winStart, bitmap := bitmap } bitmapLen :=
    ⟨htype, by rw [modifyInfo, hinfo]; rfl, hlt, hbitmap⟩
  obtain ⟨bytes, hbytes, hlength, hread⟩ := hs.roundTrip
  have hread0 := hread h0 []
  rw [List.append_nil] at hread0
  refine ⟨_, _, hrun, ⟨bytes, hbytes, hlength, hread0, ?_⟩, ?_⟩
  · rw [hlength, getSerializedSize, getSerializedSize, received]
    rcases hv with hv | hv <;> simp only [modifyInfo, hv]
  · have hat2 : At (received (h.modifyInfo 0 fun info => { info with startingSeq := w.winStart, bitmap := bitmap })
        { info with startingSeq := w.winStart, bitmap := bitmap }) 0 { startingSeq := w.winStart, bitmap := bitmap } bitmapLen :=
      ⟨hv.imp_right .inl, by rw [info?, if_pos (.inr rfl)]; rfl, by rw [received, modifyInfo, hlen]; rfl⟩
    refine hat2.reports ⟨rfl, hbits⟩ hlt hsize hle ?_
    rintro ⟨-, -, htid⟩
    change 0 >>> 12 &&& 0x000f = 14 at htid
    exact absurd htid (by decide)

/-- **A Block Ack reports the scoreboard** from which it was filled in, and a Multi-STA Block Ack those of all its entries with a bitmap.
The other entries keep their identifiers. -/
theorem fillBlockAckBitmap_faithful (h h0 : CtrlBAckResponseHeader) :
    (∀ (w : BlockAckWindow) (bitmapLen : ℕ), h.HasOneBitmap bitmapLen → w.winStart < SEQNO_SPACE_SIZE → w.getWinSize ≤ bitmapLen * 8 →
      ∃ h1 h2, fillBlockAckBitmap w h 0 = some h1 ∧ h1.Arrives h0 h2 ∧ h2.Reports 0 w) ∧
    ∀ scoreboards : ℕ → BlockAckWindow, h.MultiSta → (∀ (i bitmapLen : ℕ), h.HasBitmap i → h.baType.bitmapLen[i]? = some bitmapLen →
      (scoreboards i).winStart < SEQNO_SPACE_SIZE ∧ (scoreboards i).getWinSize ≤ bitmapLen * 8) →
      ∃ h1 h2, h.fillAll scoreboards = some h1 ∧ h1.Arrives h0 h2 ∧ (∀ i, h.HasBitmap i → h2.Reports i (scoreboards i)) ∧
        h2.baInfo.map BaInfoInstance.aidTidInfo = h.baInfo.map BaInfoInstance.aidTidInfo := by
  refine ⟨fun w bitmapLen hone hlt hsize => hone.faithful h0 hlt hsize, fun scoreboards hm hscoreboards => ?_⟩
  obtain ⟨h1, hfill, hf⟩ := hm.fillAll hscoreboards (List.range h.baInfo.length) hm.unfilled
  have hm1 : h1.MultiSta := ⟨by rw [hf.baType, hm.variant], by rw [hf.baType, hm.length, hf.length], hf.proper⟩
  obtain ⟨bytes, hbytes, hlength, hread⟩ := hm1.roundTrip
  refine ⟨h1, _, hfill, ⟨bytes, hbytes, hlength, hread h0, ?_⟩, fun i hi => ?_, hf.receivedInfo_aidTidInfo⟩
  · rw [hlength, getSerializedSize, getSerializedSize, hm1.variant]
  obtain ⟨info, hinfo, haid, hcontext⟩ := (hf.hasBitmap i).mpr hi
  have hindex : i < h1.baType.bitmapLen.length := by
    rw [hm1.length]
    exact (List.getElem?_eq_some_iff.mp hinfo).1
  have hlen := List.getElem?_eq_getElem hindex
  have hlens := (hm1.properAt hinfo hlen).context haid hcontext
  have hlen' : h.baType.bitmapLen[i]? = some h1.baType.bitmapLen[i] := by
    rw [← hlen, hf.baType]
  obtain ⟨hlt, hsize⟩ := hscoreboards i _ hi hlen'
  have hshows : info.Shows (scoreboards i) :=
    hf.shows i (by simpa using (List.getElem?_eq_some_iff.mp hinfo).1.trans_eq hf.length) info hinfo hi
  have hreceived : receivedInfo info =
      { aidTidInfo := info.aidTidInfo, startingSeq := info.startingSeq, bitmap := info.bitmap } := by
    rw [receivedInfo, if_neg haid, if_pos hcontext]
  have hat : At { h0 with baAckPolicy := h1.baAckPolicy, baType := h1.baType, baInfo := h1.baInfo.map receivedInfo } i
      (receivedInfo info) h1.baType.bitmapLen[i] := by
    refine ⟨.inr (.inr hm1.variant), ?_, hlen⟩
    rw [info?, if_pos (.inl hm1.variant), List.getElem?_map, hinfo, Option.map_some]
  rw [hreceived] at hat
  refine hat.reports ⟨hshows.startingSeq, hshows.bits⟩ hlt hsize (by rw [SEQNO_SPACE_SIZE]; omega) ?_
  rintro ⟨-, hack, -⟩
  exact Bool.false_ne_true (hcontext.1.symm.trans hack)

def twoStations : CtrlBAckResponseHeader where
  baType := ⟨.multiSta, [4, 0]⟩
  baInfo := [{ aidTidInfo := 5, bitmap := List.replicate 4 0 }, { aidTidInfo := 6 ||| 1 <<< 11 }]

theorem fillBlockAckBitmap_faithful_two :
    (∃ h1 h2, fillBlockAckBitmap ⟨4095, [false, true], 1⟩ (setType {} ⟨.compressed, [32]⟩) 0 = some h1 ∧ h1.Arrives {} h2 ∧
      h2.Reports 0 ⟨4095, [false, true], 1⟩) ∧
    ∃ h1 h2, twoStations.fillAll (fun _ => ⟨4095, [false, true], 1⟩) = some h1 ∧ h1.Arrives {} h2 ∧
      (∀ i, twoStations.HasBitmap i → h2.Reports i ⟨4095, [false, true], 1⟩) ∧
      h2.baInfo.map BaInfoInstance.aidTidInfo = twoStations.baInfo.map BaInfoInstance.aidTidInfo := by
  have hone : (setType {} ⟨.compressed, [32]⟩).HasOneBitmap 32 := ⟨.inl ⟨rfl, .inr rfl⟩, _, rfl⟩
  have hfirst : BaInfoInstance.Proper 4 { aidTidInfo := 5, bitmap := List.replicate 4 0 } := by
    constructor <;> simp [BaInfoInstance.BlockAckContext, BaInfoInstance.getAckType, BaInfoInstance.getTidInfo,
      BaInfoInstance.getAid11, SEQNO_SPACE_SIZE]
  have hsecond : BaInfoInstance.Proper 0 { aidTidInfo := 6 ||| 1 <<< 11 } := by
    constructor <;> simp [BaInfoInstance.BlockAckContext, BaInfoInstance.getAckType, BaInfoInstance.getTidInfo,
      BaInfoInstance.getAid11, SEQNO_SPACE_SIZE]
  have htwo : twoStations.MultiSta := by
    refine ⟨rfl, rfl, fun e he => ?_⟩
    rcases List.mem_cons.mp he with rfl | he
    · exact hfirst
    · rw [List.mem_singleton.mp he]
      exact hsecond
  refine ⟨(fillBlockAckBitmap_faithful _ {}).1 _ 32 hone (by decide) (by decide),
    (fillBlockAckBitmap_faithful _ {}).2 _ htwo fun i bitmapLen hi hlen => ⟨by decide, ?_⟩⟩
  have hle : ∀ j : Fin 2, twoStations.HasBitmap j → twoStations.baType.bitmapLen[j] = 4 := by decide
  have hlt : i < 2 := (List.getElem?_eq_some_iff.mp hlen).1
  have hlen' := Option.some_inj.mp ((List.getElem?_eq_getElem (l := twoStations.baType.bitmapLen) hlt).symm.trans hlen)
  rw [← hlen']
  exact (by decide : 2 ≤ 4 * 8).trans_eq (congrArg (· * 8) (hle ⟨i, hlt⟩ hi)).symm

end CtrlBAckResponseHeader

end Ns3Ndn.Wifi
