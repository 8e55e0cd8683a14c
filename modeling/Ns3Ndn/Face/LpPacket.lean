import Mathlib

/-!
# TLV elements and NDNLPv2 packets

The parts of `ndn-cxx/encoding` and `ndn-cxx/lp/packet.{hpp,cpp}` that the link service uses. An
`lp::Packet` is a list of TLV elements in the field order of the protocol, the Fragment last.
Elements are built by the encoder, so their sizes are those of the shortest encoding.

* `Tlv.ofBytes_toBytes`: integers survive their big-endian encoding.
-/

namespace Ns3Ndn

abbrev Bytes := List UInt8

namespace Tlv

/-! ## Numbers -/

def sizeOfVarNumber (n : ℕ) : ℕ :=
  if n < 253 then 1 else if n ≤ 0xFFFF then 3 else if n ≤ 0xFFFFFFFF then 5 else 9

def sizeOfNonNegativeInteger (n : ℕ) : ℕ :=
  if n ≤ 0xFF then 1 else if n ≤ 0xFFFF then 2 else if n ≤ 0xFFFFFFFF then 4 else 8

def toBytes : (size : ℕ) → (n : ℕ) → Bytes
  | 0, _ => []
  | size + 1, n => UInt8.ofNat (n / 256 ^ size) :: toBytes size n

/-- The number a big-endian byte string stands for. -/
def ofBytes (b : Bytes) : ℕ := b.foldl (fun n x => n * 256 + x.toNat) 0

@[simp] theorem length_toBytes (size n : ℕ) : (toBytes size n).length = size := by
  induction size with
  | zero => rfl
  | succ size ih => rw [toBytes, List.length_cons, ih]

theorem foldl_toBytes (size n acc : ℕ) :
    (toBytes size n).foldl (fun n x => n * 256 + x.toNat) acc = acc * 256 ^ size + n % 256 ^ size := by
  induction size generalizing acc with
  | zero => simp [toBytes, Nat.mod_one]
  | succ size ih =>
    have hbyte : (UInt8.ofNat (n / 256 ^ size)).toNat = n / 256 ^ size % 256 := by simp
    rw [toBytes, List.foldl_cons, ih, hbyte, pow_succ, Nat.mod_mul]
    ring

/-- **Integers survive their encoding.** -/
theorem ofBytes_toBytes {size n : ℕ} (h : n < 256 ^ size) : ofBytes (toBytes size n) = n := by
  rw [ofBytes, foldl_toBytes, Nat.zero_mul, Nat.zero_add, Nat.mod_eq_of_lt h]

theorem ofBytes_cons (x : UInt8) (b : Bytes) : ofBytes (x :: b) = x.toNat * 256 ^ b.length + ofBytes b := by
  have hfold : ∀ (b : Bytes) (acc : ℕ), b.foldl (fun n x => n * 256 + x.toNat) acc =
      acc * 256 ^ b.length + b.foldl (fun n x => n * 256 + x.toNat) 0 := by
    intro b
    induction b with
    | nil => simp
    | cons x b ih =>
      intro acc
      rw [List.foldl_cons, List.foldl_cons, ih, ih (0 * 256 + x.toNat), List.length_cons, pow_succ']
      ring
  rw [ofBytes, List.foldl_cons, hfold, Nat.zero_mul, Nat.zero_add]
  rfl

theorem ofBytes_lt (b : Bytes) : ofBytes b < 256 ^ b.length := by
  induction b with
  | nil => simp [ofBytes]
  | cons x b ih =>
    have hx := x.toNat_lt
    rw [ofBytes_cons, List.length_cons, pow_succ']
    calc x.toNat * 256 ^ b.length + ofBytes b < x.toNat * 256 ^ b.length + 256 ^ b.length := by omega
      _ = (x.toNat + 1) * 256 ^ b.length := by ring
      _ ≤ 256 * 256 ^ b.length := Nat.mul_le_mul_right _ hx

theorem toBytes_mul_add (size k n : ℕ) : toBytes size (k * 256 ^ size + n) = toBytes size n := by
  induction size generalizing k with
  | zero => rfl
  | succ size ih =>
    have hk : k * 256 ^ (size + 1) = k * 256 * 256 ^ size := by ring
    have hbyte : UInt8.ofNat (k * 256 + n / 256 ^ size) = UInt8.ofNat (n / 256 ^ size) :=
      UInt8.toNat_inj.mp (by rw [UInt8.toNat_ofNat', UInt8.toNat_ofNat']; omega)
    rw [toBytes, toBytes, hk, ih, Nat.add_comm, Nat.add_mul_div_right _ _ (by positivity), Nat.add_comm, hbyte]

/-- **Bytes survive their decoding.** -/
theorem toBytes_ofBytes (b : Bytes) : toBytes b.length (ofBytes b) = b := by
  induction b with
  | nil => rfl
  | cons x b ih =>
    rw [ofBytes_cons, List.length_cons, toBytes, toBytes_mul_add, ih, Nat.add_comm, Nat.add_mul_div_right _ _ (by positivity),
      Nat.div_eq_of_lt (ofBytes_lt b), Nat.zero_add, UInt8.ofNat_toNat]

def readVarNumber : Bytes → Option (ℕ × Bytes)
  | [] => none
  | b :: rest =>
    if b.toNat < 253 then some (b.toNat, rest)
    else
      let size := if b.toNat = 253 then 2 else if b.toNat = 254 then 4 else 8
      if rest.length < size then none else some (ofBytes (rest.take size), rest.drop size)

def readType (b : Bytes) : Option (ℕ × Bytes) :=
  match readVarNumber b with
  | some (type, rest) => if type = 0 ∨ 0xFFFFFFFF < type then none else some (type, rest)
  | none => none

def firstTlv (b : Bytes) : Option Bytes :=
  match readType b with
  | none => none
  | some (_, rest) =>
    match readVarNumber rest with
    | none => none
    | some (length, value) =>
      if value.length < length then none else some (b.take (b.length - (value.length - length)))

/-- `Block::parse` on a value: split it into TLVs, or fail. -/
def parse : (fuel : ℕ) → Bytes → Option (List Bytes)
  | _, [] => some []
  | 0, _ => none
  | fuel + 1, b =>
    match firstTlv b with
    | none => none
    | some element => (parse fuel (b.drop element.length)).map (element :: ·)

end Tlv

open Tlv

/-! ## Fields -/

/-- The TLV-TYPE numbers of the fields the link service handles. -/
def tlvLpPacket : ℕ := 100
def tlvFragment : ℕ := 80
def tlvSequence : ℕ := 81
def tlvFragIndex : ℕ := 82
def tlvFragCount : ℕ := 83
def tlvAck : ℕ := 836
def tlvTxSequence : ℕ := 840

structure Element where
  type : ℕ
  value : Bytes
deriving DecidableEq

def Element.size (e : Element) : ℕ :=
  sizeOfVarNumber e.type + sizeOfVarNumber e.value.length + e.value.length

def compareFieldSortOrder (first second : ℕ) : Bool :=
  let order (type : ℕ) : ℕ := if type = tlvFragment then 2 else 1
  order first < order second || order first == order second && first < second

structure LpPacket where
  elements : List Element := []
deriving DecidableEq

namespace LpPacket

variable (p : LpPacket)

def has (type : ℕ) : Bool := p.elements.any (·.type == type)

def value? (type : ℕ) : Option Bytes := (p.elements.find? (·.type == type)).map Element.value

/-- Put an element at the `upper_bound` of its place in the field order. -/
def insertField (type : ℕ) (value : Bytes) : LpPacket :=
  ⟨p.elements.takeWhile (fun e => ! compareFieldSortOrder type e.type) ++ ⟨type, value⟩ ::
    p.elements.dropWhile fun e => ! compareFieldSortOrder type e.type⟩

/-- Add a field; `none` stands for the exception on a repeated field. Only Ack is repeatable. -/
def add (type : ℕ) (value : Bytes) : Option LpPacket :=
  if type ≠ tlvAck ∧ p.has type then none else some (p.insertField type value)

/-- Remove all occurrences of a field. -/
def clear (type : ℕ) : LpPacket := ⟨p.elements.filter (·.type != type)⟩

def set (type : ℕ) (value : Bytes) : LpPacket := (p.clear type).insertField type value

def encodeSequence (n : ℕ) : Bytes := toBytes 8 n

/-- The encoding of a NonNegativeInteger field (FragIndex, FragCount). -/
def encodeNonNegativeInteger (n : ℕ) : Bytes := toBytes (sizeOfNonNegativeInteger n) n

/-- Decode a 64-bit field; `none` is a decoding error. -/
def decodeSequence (b : Bytes) : Option ℕ := if b.length = 8 then some (ofBytes b) else none

/-- Decode a NonNegativeInteger field; `none` is a decoding error. -/
def decodeNonNegativeInteger (b : Bytes) : Option ℕ :=
  if b.length = 1 ∨ b.length = 2 ∨ b.length = 4 ∨ b.length = 8 then some (ofBytes b) else none

/-- Decode a Fragment field, which cannot be empty. -/
def decodeFragment (b : Bytes) : Option Bytes := if b.isEmpty then none else some b

def getSequence (type : ℕ) : Option ℕ := (p.value? type).bind decodeSequence

def getNonNegativeInteger (type : ℕ) : Option ℕ := (p.value? type).bind decodeNonNegativeInteger

def getFragment : Option Bytes := (p.value? tlvFragment).bind decodeFragment

def listAck : Option (List ℕ) :=
  (p.elements.filter (·.type == tlvAck)).mapM fun e => decodeSequence e.value

def contentSize : ℕ := (p.elements.map Element.size).sum

/-- `wireEncode().size()`. A packet with nothing but a Fragment is sent as the bare network packet
in it. -/
def wireSize : Option ℕ :=
  if p.elements.map Element.type = [tlvFragment] then
    ((p.value? tlvFragment).bind fun b => (parse b.length b).bind List.head?).map List.length
  else some (sizeOfVarNumber tlvLpPacket + sizeOfVarNumber p.contentSize + p.contentSize)

/-! ## Reading a field after an edit -/

variable {p} {t t' : ℕ} {v : Bytes}

theorem filter_insertField (q : Element → Bool) (h : q ⟨t, v⟩ = false) :
    (p.insertField t v).elements.filter q = p.elements.filter q := by
  rw [insertField, List.filter_append, List.filter_cons_of_neg (by simp [h]), ← List.filter_append,
    List.takeWhile_append_dropWhile]

theorem value?_eq_filter : p.value? t = ((p.elements.filter (·.type == t)).head?).map Element.value := by
  rw [value?, List.head?_filter]

theorem value?_insertField_of_ne (h : t ≠ t') : (p.insertField t v).value? t' = p.value? t' := by
  rw [value?_eq_filter, value?_eq_filter, filter_insertField _ (by simpa using h)]

theorem value?_insertField_self (h : p.has t = false) : (p.insertField t v).value? t = some v := by
  have hnone : ∀ e ∈ p.elements, (e.type == t) = false := by
    simpa [has] using h
  have htake : (p.elements.takeWhile fun e => ! compareFieldSortOrder t e.type).filter
      (·.type == t) = [] :=
    List.filter_eq_nil_iff.mpr fun e he => by
      simp [hnone e ((List.takeWhile_sublist _).subset he)]
  rw [value?_eq_filter, insertField, List.filter_append, htake, List.nil_append,
    List.filter_cons_of_pos (by simp)]
  rfl

theorem has_eq_isSome : p.has t = (p.value? t).isSome := by
  rw [has, value?, Option.isSome_map, List.isSome_find?]

theorem has_insertField_of_ne (h : t ≠ t') : (p.insertField t v).has t' = p.has t' := by
  rw [has_eq_isSome, has_eq_isSome, value?_insertField_of_ne h]

theorem has_clear_self : (p.clear t).has t = false := by
  simp [has, clear]

theorem filter_clear (q : Element → Bool) (h : ∀ v, q ⟨t, v⟩ = false) :
    (p.clear t).elements.filter q = p.elements.filter q := by
  rw [clear, List.filter_filter]
  refine List.filter_congr fun e _ => ?_
  by_cases he : e.type = t
  · have := h e.value
    rw [← he] at this
    simp [this]
  · simp [he]

theorem value?_clear_of_ne (h : t ≠ t') : (p.clear t).value? t' = p.value? t' := by
  rw [value?_eq_filter, value?_eq_filter, filter_clear _ fun v => by simpa using h]

theorem value?_set_self : (p.set t v).value? t = some v := value?_insertField_self has_clear_self

theorem value?_set_of_ne (h : t ≠ t') : (p.set t v).value? t' = p.value? t' := by
  rw [set, value?_insertField_of_ne h, value?_clear_of_ne h]

theorem filter_set (q : Element → Bool) (h : ∀ v, q ⟨t, v⟩ = false) :
    (p.set t v).elements.filter q = p.elements.filter q := by
  rw [set, filter_insertField q (h v), filter_clear q h]

theorem insertField_perm : (p.insertField t v).elements.Perm (⟨t, v⟩ :: p.elements) := by
  refine List.perm_middle.trans (List.Perm.of_eq ?_)
  rw [List.takeWhile_append_dropWhile]

theorem contentSize_insertField :
    (p.insertField t v).contentSize = Element.size ⟨t, v⟩ + p.contentSize := by
  rw [contentSize, (insertField_perm.map Element.size).sum_eq, List.map_cons, List.sum_cons]
  rfl

theorem contentSize_clear_insertField (h : t ≠ t') :
    ((p.insertField t v).clear t').contentSize = Element.size ⟨t, v⟩ + (p.clear t').contentSize := by
  have hperm := insertField_perm (p := p) (t := t) (v := v) |>.filter (·.type != t')
  rw [List.filter_cons_of_pos (by simpa using h)] at hperm
  rw [contentSize, clear, (hperm.map Element.size).sum_eq, List.map_cons, List.sum_cons]
  rfl

theorem contentSize_set :
    (p.set t v).contentSize = Element.size ⟨t, v⟩ + (p.clear t).contentSize :=
  contentSize_insertField

theorem decodeSequence_encodeSequence {n : ℕ} (h : n < 2 ^ 64) :
    decodeSequence (encodeSequence n) = some n := by
  rw [decodeSequence, encodeSequence, if_pos (length_toBytes 8 n), ofBytes_toBytes h]

theorem lt_of_sizeOfNonNegativeInteger {n : ℕ} (h : n < 2 ^ 64) :
    n < 256 ^ sizeOfNonNegativeInteger n := by
  unfold sizeOfNonNegativeInteger
  split_ifs <;> norm_num <;> omega

theorem decodeNonNegativeInteger_encode {n : ℕ} (h : n < 2 ^ 64) :
    decodeNonNegativeInteger (encodeNonNegativeInteger n) = some n := by
  rw [decodeNonNegativeInteger, encodeNonNegativeInteger, if_pos,
    ofBytes_toBytes (lt_of_sizeOfNonNegativeInteger h)]
  rw [length_toBytes]
  unfold sizeOfNonNegativeInteger
  split_ifs <;> simp

end LpPacket

end Ns3Ndn
