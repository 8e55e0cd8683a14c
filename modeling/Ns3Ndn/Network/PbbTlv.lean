import Ns3Ndn.Lib.Bytes

/-!
# TLVs of address blocks

`network/utils/packetbb.cc`, `PbbTlv` and `PbbAddressTlvBlock`: a TLV is written with flags for the fields that it has, and the TLVs of an
address block with the number of their octets.

* `ReadsBack`: the octets of a block are counted and read to their end;
* **`readsBack_of_proper`**: the blocks that the format has room for.
-/

namespace Ns3Ndn

open BytesLib

/-- `PbbTlv`, with an option for each flag and its field. The octets of a value are its buffer. -/
structure PbbAddressTlv where
  type : UInt8
  typeExt : Option UInt8 := none
  indexStart : Option UInt8 := none
  indexStop : Option UInt8 := none
  isMultivalue : Bool := false
  value : Option (List UInt8) := none
  deriving DecidableEq

namespace PbbAddressTlv

def THAS_TYPE_EXT : UInt8 := 0x80

def THAS_SINGLE_INDEX : UInt8 := 0x40

def THAS_MULTI_INDEX : UInt8 := 0x20

def THAS_VALUE : UInt8 := 0x10

def THAS_EXT_LEN : UInt8 := 0x08

def TIS_MULTIVALUE : UInt8 := 0x04

variable (tlv : PbbAddressTlv)

def getSerializedSize : ℕ :=
  2 + (if tlv.typeExt.isSome then 1 else 0) + (if tlv.indexStart.isSome then 1 else 0) + (if tlv.indexStop.isSome then 1 else 0) +
    tlv.value.elim 0 fun value => (if value.length > 255 then 2 else 1) + value.length

def flags : UInt8 :=
  (if tlv.typeExt.isSome then THAS_TYPE_EXT else 0) |||
    (if tlv.indexStart.isSome then if tlv.indexStop.isSome then THAS_MULTI_INDEX else THAS_SINGLE_INDEX else 0) |||
    tlv.value.elim 0 fun value =>
      THAS_VALUE ||| (if value.length > 255 then THAS_EXT_LEN else 0) ||| (if tlv.isMultivalue then TIS_MULTIVALUE else 0)

/-- A second index is written after a first one only. -/
def serializeIndex : List UInt8 :=
  tlv.indexStart.elim [] fun start => start :: tlv.indexStop.toList

def serializeValue : List UInt8 :=
  tlv.value.elim [] fun value => (if value.length > 255 then be16 value.length else [.ofNat value.length]) ++ value

def serialize : List UInt8 := tlv.type :: tlv.flags :: (tlv.typeExt.toList ++ tlv.serializeIndex ++ tlv.serializeValue)

def deserializeTypeExt (flags : UInt8) (bytes : List UInt8) : Option (Option UInt8 × List UInt8) :=
  if flags &&& THAS_TYPE_EXT ≠ 0 then (readU8 bytes).map fun r => (some r.1, r.2) else some (none, bytes)

def deserializeIndex (flags : UInt8) (bytes : List UInt8) : Option ((Option UInt8 × Option UInt8) × List UInt8) :=
  if flags &&& THAS_MULTI_INDEX ≠ 0 then
    (readU8 bytes).bind fun start => (readU8 start.2).map fun stop => ((some start.1, some stop.1), stop.2)
  else if flags &&& THAS_SINGLE_INDEX ≠ 0 then (readU8 bytes).map fun start => ((some start.1, none), start.2)
  else some ((none, none), bytes)

def deserializeValue (flags : UInt8) (bytes : List UInt8) : Option (Option (List UInt8) × List UInt8) :=
  if flags &&& THAS_VALUE ≠ 0 then
    ((if flags &&& THAS_EXT_LEN ≠ 0 then readBe16 bytes else (readU8 bytes).map fun r => (r.1.toNat, r.2)).bind fun len =>
      takeBytes len.1 len.2).map fun r => (some r.1, r.2)
  else some (none, bytes)

def deserialize : List UInt8 → Option (PbbAddressTlv × List UInt8)
  | type :: flags :: bytes => (deserializeTypeExt flags bytes).bind fun typeExt => (deserializeIndex flags typeExt.2).bind fun index =>
    (deserializeValue flags index.2).map fun value =>
      ({ type, typeExt := typeExt.1, indexStart := index.1.1, indexStop := index.1.2, value := value.1 }, value.2)
  | _ => none

end PbbAddressTlv

abbrev PbbAddressTlvBlock := List PbbAddressTlv

namespace PbbAddressTlvBlock

def getSerializedSize (tlvs : PbbAddressTlvBlock) : ℕ := 2 + (tlvs.map PbbAddressTlv.getSerializedSize).sum

/-- `Serialize`. The number of octets goes through `uint16_t`. -/
def serialize (tlvs : PbbAddressTlvBlock) : List UInt8 :=
  if tlvs.isEmpty then be16 0
  else be16 ((tlvs.flatMap PbbAddressTlv.serialize).length % 65536) ++ tlvs.flatMap PbbAddressTlv.serialize

/-- The loop of `Deserialize`, with the number of octets that are left. Each turn reads some. -/
def tlvLoop : ℕ → ℕ → List UInt8 → Option (PbbAddressTlvBlock × List UInt8)
  | _, 0, bytes => some ([], bytes)
  | 0, _ + 1, _ => none
  | fuel + 1, left, bytes => (PbbAddressTlv.deserialize bytes).bind fun tlv =>
    (tlvLoop fuel (left - (bytes.length - tlv.2.length)) tlv.2).map fun r => (tlv.1 :: r.1, r.2)

def deserialize (bytes : List UInt8) : Option (PbbAddressTlvBlock × List UInt8) :=
  (readBe16 bytes).bind fun size => tlvLoop size.1 size.1 size.2

/-- **A TLV block reads back**: its octets are counted right, and read to their end whatever follows. -/
def ReadsBack (tlvs : PbbAddressTlvBlock) : Prop :=
  (serialize tlvs).length = getSerializedSize tlvs ∧ ∀ rest, ∃ tlvs', deserialize (serialize tlvs ++ rest) = some (tlvs', rest)

end PbbAddressTlvBlock

namespace PbbAddressTlv

variable {tlv : PbbAddressTlv}

/-- The TLVs that can be written: there is no second index without a first one, and the length of the value has sixteen bits. -/
structure Proper (tlv : PbbAddressTlv) : Prop where
  index : tlv.indexStop.isSome → tlv.indexStart.isSome
  value : ∀ value, tlv.value = some value → value.length < 2 ^ 16

theorem length_serialize (h : tlv.Proper) : tlv.serialize.length = tlv.getSerializedSize := by
  obtain ⟨type, typeExt, indexStart, indexStop, isMultivalue, value⟩ := tlv
  have hindex := h.index
  rw [serialize, getSerializedSize, List.length_cons, List.length_cons, List.length_append, List.length_append]
  have hvalue : (serializeValue ⟨type, typeExt, indexStart, indexStop, isMultivalue, value⟩).length =
      value.elim 0 fun value => (if value.length > 255 then 2 else 1) + value.length := by
    cases value with
    | none => rfl
    | some value =>
      simp only [serializeValue, Option.elim_some, List.length_append]
      split_ifs <;> rfl
  rw [hvalue]
  cases typeExt <;> cases indexStart <;> cases indexStop <;>
    simp [serializeIndex] at hindex ⊢ <;> omega

theorem flags_spec (tlv : PbbAddressTlv) :
    (tlv.flags &&& THAS_TYPE_EXT ≠ 0 ↔ tlv.typeExt.isSome) ∧
      (tlv.flags &&& THAS_MULTI_INDEX ≠ 0 ↔ tlv.indexStart.isSome ∧ tlv.indexStop.isSome) ∧
      (tlv.flags &&& THAS_SINGLE_INDEX ≠ 0 ↔ tlv.indexStart.isSome ∧ tlv.indexStop.isNone) ∧
      (tlv.flags &&& THAS_VALUE ≠ 0 ↔ tlv.value.isSome) ∧
      (tlv.flags &&& THAS_EXT_LEN ≠ 0 ↔ ∃ value, tlv.value = some value ∧ value.length > 255) := by
  obtain ⟨type, typeExt, indexStart, indexStop, isMultivalue, value⟩ := tlv
  cases value with
  | none => cases typeExt <;> cases indexStart <;> cases indexStop <;> simp [flags] <;> decide
  | some value =>
    by_cases hlong : value.length > 255 <;> cases isMultivalue <;> cases typeExt <;> cases indexStart <;> cases indexStop <;>
      simp [flags, hlong] <;> decide

theorem deserializeTypeExt_serialize (tlv : PbbAddressTlv) (rest : List UInt8) :
    deserializeTypeExt tlv.flags (tlv.typeExt.toList ++ rest) = some (tlv.typeExt, rest) := by
  unfold deserializeTypeExt
  cases htype : tlv.typeExt with
  | none => rw [if_neg (by rw [tlv.flags_spec.1, htype]; exact Bool.false_ne_true)]; rfl
  | some typeExt => rw [if_pos (tlv.flags_spec.1.mpr (by rw [htype]; rfl))]; rfl

theorem deserializeIndex_serialize (h : tlv.Proper) (rest : List UInt8) :
    deserializeIndex tlv.flags (tlv.serializeIndex ++ rest) = some ((tlv.indexStart, tlv.indexStop), rest) := by
  obtain ⟨-, hmulti, hsingle, -, -⟩ := tlv.flags_spec
  have hindex := h.index
  unfold deserializeIndex serializeIndex
  cases hstart : tlv.indexStart with
  | none =>
    rw [hstart] at hmulti hsingle hindex
    cases hstop : tlv.indexStop with
    | none =>
      rw [if_neg fun hf => Bool.false_ne_true (hmulti.mp hf).1, if_neg fun hf => Bool.false_ne_true (hsingle.mp hf).1]
      rfl
    | some stop =>
      rw [hstop] at hindex
      exact absurd (hindex rfl) Bool.false_ne_true
  | some start =>
    rw [hstart] at hmulti hsingle
    cases hstop : tlv.indexStop with
    | none =>
      rw [hstop] at hmulti hsingle
      rw [if_neg fun hf => Bool.false_ne_true (hmulti.mp hf).2, if_pos (hsingle.mpr ⟨rfl, rfl⟩)]
      rfl
    | some stop =>
      rw [hstop] at hmulti
      rw [if_pos (hmulti.mpr ⟨rfl, rfl⟩)]
      rfl

theorem deserializeValue_serialize (h : tlv.Proper) (rest : List UInt8) :
    deserializeValue tlv.flags (tlv.serializeValue ++ rest) = some (tlv.value, rest) := by
  obtain ⟨-, -, -, hvalue, hlong⟩ := tlv.flags_spec
  have hlength := h.value
  unfold deserializeValue serializeValue
  cases hv : tlv.value with
  | none =>
    rw [hv] at hvalue
    rw [if_neg fun hf => Bool.false_ne_true (hvalue.mp hf)]
    rfl
  | some value =>
    have hlt := hlength value hv
    rw [hv] at hvalue hlong
    rw [if_pos (hvalue.mpr rfl), Option.elim_some]
    by_cases hbig : value.length > 255
    · rw [if_pos hbig, if_pos (hlong.mpr ⟨value, rfl, hbig⟩), List.append_assoc, readBe16_be16 hlt, Option.bind_some,
        takeBytes_append rfl, Option.map_some]
    · have hnot : ¬ tlv.flags &&& THAS_EXT_LEN ≠ 0 := fun hf => by
        obtain ⟨value', heq, hbig'⟩ := hlong.mp hf
        exact hbig (Option.some_inj.mp heq ▸ hbig')
      have hread : (readU8 (([UInt8.ofNat value.length] ++ value) ++ rest)).map (fun r => (r.1.toNat, r.2)) =
          some (value.length, value ++ rest) := by
        show some ((UInt8.ofNat value.length).toNat, value ++ rest) = _
        rw [UInt8.toNat_ofNat_of_lt' (by omega : value.length < 2 ^ 8)]
      rw [if_neg hbig, if_neg hnot, hread, Option.bind_some, takeBytes_append rfl, Option.map_some]

/-- **A TLV comes back**, but for its flag for several values. -/
theorem deserialize_serialize (h : tlv.Proper) (rest : List UInt8) :
    deserialize (tlv.serialize ++ rest) = some ({ tlv with isMultivalue := false }, rest) := by
  rw [serialize, List.cons_append, List.cons_append, List.append_assoc, List.append_assoc, deserialize, deserializeTypeExt_serialize,
    Option.bind_some, deserializeIndex_serialize h, Option.bind_some, deserializeValue_serialize h, Option.map_some]

end PbbAddressTlv

namespace PbbAddressTlvBlock

variable {tlvs : PbbAddressTlvBlock}

theorem length_flatMap_serialize (h : ∀ tlv ∈ tlvs, tlv.Proper) :
    (tlvs.flatMap PbbAddressTlv.serialize).length = (tlvs.map PbbAddressTlv.getSerializedSize).sum := by
  rw [List.length_flatMap]
  exact congrArg List.sum (List.map_congr_left fun tlv htlv => PbbAddressTlv.length_serialize (h tlv htlv))

theorem tlvLoop_serialize (h : ∀ tlv ∈ tlvs, tlv.Proper) (rest : List UInt8) {fuel : ℕ}
    (hfuel : (tlvs.flatMap PbbAddressTlv.serialize).length ≤ fuel) :
    tlvLoop fuel (tlvs.flatMap PbbAddressTlv.serialize).length (tlvs.flatMap PbbAddressTlv.serialize ++ rest) =
      some (tlvs.map fun tlv => { tlv with isMultivalue := false }, rest) := by
  induction tlvs generalizing fuel with
  | nil => rw [List.flatMap_nil, List.length_nil, tlvLoop]; rfl
  | cons tlv tlvs ih =>
    have hpos : 0 < tlv.serialize.length := by
      rw [PbbAddressTlv.serialize, List.length_cons]
      exact Nat.succ_pos _
    rw [List.flatMap_cons, List.length_append] at hfuel ⊢
    obtain ⟨fuel, rfl⟩ : ∃ n, fuel = n + 1 := ⟨fuel - 1, by omega⟩
    obtain ⟨size, hsize⟩ : ∃ n, tlv.serialize.length + (tlvs.flatMap PbbAddressTlv.serialize).length = n + 1 :=
      ⟨tlv.serialize.length + (tlvs.flatMap PbbAddressTlv.serialize).length - 1, by omega⟩
    have hleft : size + 1 - ((tlv.serialize ++ (tlvs.flatMap PbbAddressTlv.serialize ++ rest)).length -
        (tlvs.flatMap PbbAddressTlv.serialize ++ rest).length) = (tlvs.flatMap PbbAddressTlv.serialize).length := by
      rw [List.length_append, Nat.add_sub_cancel]
      omega
    rw [hsize, List.append_assoc, tlvLoop, PbbAddressTlv.deserialize_serialize (h tlv List.mem_cons_self), Option.bind_some, hleft,
      ih (fun t ht => h t (List.mem_cons_of_mem _ ht)) (by omega), Option.map_some, List.map_cons]
    exact Nat.succ_ne_zero size

/-- **The TLV blocks that the format has room for read back.** -/
theorem readsBack_of_proper (h : ∀ tlv ∈ tlvs, tlv.Proper) (hsize : getSerializedSize tlvs < 2 + 2 ^ 16) : ReadsBack tlvs := by
  have hlength := length_flatMap_serialize h
  have hlt : (tlvs.flatMap PbbAddressTlv.serialize).length < 65536 := by
    rw [getSerializedSize] at hsize
    omega
  have hser : serialize tlvs = be16 (tlvs.flatMap PbbAddressTlv.serialize).length ++ tlvs.flatMap PbbAddressTlv.serialize := by
    unfold serialize
    cases tlvs with
    | nil => rfl
    | cons tlv tlvs => rw [if_neg (by rw [List.isEmpty_cons]; exact Bool.false_ne_true), Nat.mod_eq_of_lt hlt]
  rw [ReadsBack, hser]
  constructor
  · rw [List.length_append, length_be16, hlength, getSerializedSize]
  · intro rest
    rw [List.append_assoc, deserialize, readBe16_be16 hlt, Option.bind_some]
    exact ⟨_, tlvLoop_serialize h rest le_rfl⟩

end PbbAddressTlvBlock

end Ns3Ndn
