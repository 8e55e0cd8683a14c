import Ns3Ndn.Lib.Text
import Ns3Ndn.NameSuccessor
import Ns3Ndn.Encoding.Interest
import Ns3Ndn.Face.LpPacket

/-!
# URIs of names

`Name::toUri`, `Name(std::string)` and `Component::toUri`, `fromEscapedString` of `ndn-cxx`, with the rules for component
types of `ndn-cxx/impl/name-component-types.hpp`. The canonical form of a component has the number of its type and its
escaped value. The alternate form has a word for the type of a digest or a number, and the digest in hexadecimal digits or
the number in base ten.

A component of a URI is valid, as the constructors check it. A name that is decoded has not been checked.

* **`ofUri_toUri`**: a name is restored when its components are;
* **`canonical_roundTrip_iff`**, **`alternate_roundTrip_iff`**: the names that are restored.
-/

namespace Ns3Ndn

open TextLib

/-! ## Component types -/

def ascii (s : String) : Bytes := s.toList.map fun c => UInt8.ofNat c.toNat

inductive UriFormat where
  | canonical
  | alternate
deriving DecidableEq

inductive ComponentType where
  | plain
  | generic
  | sha256 (typeName uriPrefix : String)
  | decimal (typeName uriPrefix : String)

def componentType (type : ℕ) : ComponentType :=
  if type = 1 then .sha256 "ImplicitSha256DigestComponent" "sha256digest"
  else if type = 2 then .sha256 "ParametersSha256DigestComponent" "params-sha256"
  else if type = 8 then .generic
  else if type = 50 then .decimal "SegmentNameComponent" "seg"
  else if type = 52 then .decimal "ByteOffsetNameComponent" "off"
  else if type = 54 then .decimal "VersionNameComponent" "v"
  else if type = 56 then .decimal "TimestampNameComponent" "t"
  else if type = 58 then .decimal "SequenceNumNameComponent" "seq"
  else .plain

/-- `getAltUriPrefix`. -/
def ComponentType.altUriPrefix : ComponentType → Option Bytes
  | plain => none
  | generic => none
  | sha256 _ uriPrefix => some (ascii uriPrefix)
  | decimal _ uriPrefix => some (ascii uriPrefix)

/-- `findByUriPrefix`, in the table of 60 types. -/
def findByUriPrefix (uriPrefix : Bytes) : Option ℕ :=
  (List.range 60).find? fun type => (componentType type).altUriPrefix = some uriPrefix

inductive UriError where
  | periods
  | invalidType (type : ℕ)
  | digestLength (typeName : String)
  | unknownPrefix (typePrefix : Bytes)
  | invalidHex (typeName : String)
  | invalidFormat (typeName : String)
  | outOfRange (typeName : String)
deriving DecidableEq

def UriError.what : UriError → Bytes
  | periods => ascii "Illegal URI (name component cannot be . or ..)"
  | invalidType type => ascii "TLV-TYPE " ++ decimal type ++ ascii " is not a valid NameComponent"
  | digestLength typeName => ascii (typeName ++ " TLV-LENGTH must be 32")
  | unknownPrefix typePrefix => ascii "Unknown TLV-TYPE '" ++ typePrefix ++ ascii "' in NameComponent URI"
  | invalidHex typeName => ascii ("Cannot convert to " ++ typeName ++ " (invalid hex encoding)")
  | invalidFormat typeName => ascii ("Cannot convert to " ++ typeName ++ " (invalid format)")
  | outOfRange typeName => ascii ("Cannot convert to " ++ typeName ++ " (out of range)")

/-! ## Writing -/

def slash : UInt8 := 47
def colon : UInt8 := 58
def equals : UInt8 := 61
def period : UInt8 := 46

/-- The characters that are not escaped: letters, digits and four others. -/
def isUnreserved (c : UInt8) : Bool :=
  97 ≤ c.toNat ∧ c.toNat ≤ 122 ∨ 65 ≤ c.toNat ∧ c.toNat ≤ 90 ∨ 48 ≤ c.toNat ∧ c.toNat ≤ 57 ∨
    c.toNat = 45 ∨ c.toNat = 46 ∨ c.toNat = 95 ∨ c.toNat = 126

namespace Component

/-- `writeUriEscapedValue`: three periods come before a value of periods only. -/
def writeUriEscapedValue (value : Bytes) : Bytes :=
  (if value.all (· = period) then [period, period, period] else []) ++ escape isUnreserved value

def isNumber (c : Component) : Bool :=
  c.value.length = 1 ∨ c.value.length = 2 ∨ c.value.length = 4 ∨ c.value.length = 8

/-- The `writeUri` of the base class. -/
def writeUri (c : Component) : Bytes := decimal c.type ++ [equals] ++ writeUriEscapedValue c.value

/-- `Component::toUri`. -/
def toUri (format : UriFormat) (c : Component) : Bytes :=
  match format with
  | .canonical => c.writeUri
  | .alternate =>
    match componentType c.type with
    | .plain => c.writeUri
    | .generic => writeUriEscapedValue c.value
    | .sha256 _ uriPrefix => ascii uriPrefix ++ [equals] ++ printHex false c.value
    | .decimal _ uriPrefix =>
      if c.isNumber then ascii uriPrefix ++ [equals] ++ decimal (Tlv.ofBytes c.value) else c.writeUri

/-! ## Reading -/

def make (type : ℕ) (value : Bytes) : Except UriError Component :=
  if type < 1 ∨ 65535 < type then .error (.invalidType type)
  else match componentType type with
    | .sha256 typeName _ => if value.length ≠ 32 then .error (.digestLength typeName) else .ok ⟨type, value⟩
    | _ => .ok ⟨type, value⟩

def parseUriEscapedValue (type : ℕ) (input : Bytes) : Except UriError Component :=
  let value := unescape input
  if value.all (· = period) then
    if value.length < 3 then .error .periods else make type (value.take (value.length - 3))
  else make type value

/-- `parseAltUriValue`. The types without an alternate form have no such rule. -/
def parseAltUriValue (type : ℕ) (input : Bytes) : Except UriError Component :=
  match componentType type with
  | .sha256 typeName _ =>
    match fromHex input with
    | none => .error (.invalidHex typeName)
    | some value => make type value
  | .decimal typeName _ =>
    match scanDecimal input with
    | none => .error (.invalidFormat typeName)
    | some n =>
      if 2 ^ 64 ≤ n then .error (.outOfRange typeName)
      else if decimal n ≠ input then .error (.invalidFormat typeName)
      else make type (LpPacket.encodeNonNegativeInteger n)
  | _ => .error (.invalidType type)

/-- `Component::fromEscapedString`. -/
def fromEscapedString (input : Bytes) : Except UriError Component :=
  match input.dropWhile (· ≠ equals) with
  | [] => parseUriEscapedValue 8 input
  | _ :: value =>
    let typePrefix := input.takeWhile (· ≠ equals)
    let type := (scanDecimal typePrefix).getD 0
    if 1 ≤ type ∧ type ≤ 65535 ∧ decimal type = typePrefix then parseUriEscapedValue type value
    else match findByUriPrefix typePrefix with
      | none => .error (.unknownPrefix typePrefix)
      | some type => parseAltUriValue type value

end Component

namespace Name

/-- `Name::toUri`. -/
def toUri (format : UriFormat) (n : Name) : Bytes :=
  if n = [] then [slash] else n.flatMap fun c => slash :: c.toUri format

/-- The components between slashes. `component` is what was read of the next one, and there is none after a slash at the
end. -/
def parseComponents : (component : Bytes) → Bytes → Except UriError Name
  | component, [] => if component = [] then .ok [] else (Component.fromEscapedString component).map fun c => [c]
  | component, x :: rest =>
    if x = slash then
      (Component.fromEscapedString component).bind fun c => (parseComponents [] rest).map fun n => c :: n
    else parseComponents (component ++ [x]) rest

/-- Without the scheme, if a colon comes before the first slash. -/
def dropScheme (uri : Bytes) : Bytes :=
  if colon ∈ uri.takeWhile (· ≠ slash) then (uri.dropWhile (· ≠ colon)).drop 1 else uri

/-- Without the first slash, and an authority after two of them. There may be nothing else, which is `none`. -/
def dropAuthority (uri : Bytes) : Option Bytes :=
  match uri with
  | x :: y :: rest =>
    if x = slash then
      if y = slash then
        match rest.dropWhile (· ≠ slash) with
        | [] => none
        | _ :: rest => some rest
      else some (y :: rest)
    else some uri
  | [x] => if x = slash then some [] else some uri
  | [] => some []

/-- `Name(std::string)`. -/
def ofUri (uri : Bytes) : Except UriError Name :=
  if uri = [] then .ok []
  else match dropAuthority (dropScheme uri) with
    | none => .ok []
    | some uri => parseComponents [] uri

end Name

/-! ## Characters -/

theorem isUnreserved_percent : isUnreserved percent = false := by decide

theorem isUnreserved_of_isDigit {c : UInt8} (h : isDigit c = true) : isUnreserved c = true := by
  unfold isDigit at h
  unfold isUnreserved
  simp at h ⊢
  omega

theorem isUnreserved_toHexChar {n : ℕ} (h : n < 16) (wantUpperCase : Bool) : isUnreserved (toHexChar n wantUpperCase) = true := by
  interval_cases n <;> cases wantUpperCase <;> decide

theorem isUnreserved_of_altUriPrefix {type : ℕ} {uriPrefix : Bytes} (h : (componentType type).altUriPrefix = some uriPrefix) :
    (∀ c ∈ uriPrefix, isUnreserved c = true) ∧ uriPrefix ≠ [] ∧ scanDecimal uriPrefix = none ∧
      findByUriPrefix uriPrefix = some type := by
  unfold componentType at h
  split_ifs at h with h₁ h₂ h₃ h₄ h₅ h₆ h₇ h₈
  case pos => subst h₁; obtain rfl := Option.some_inj.mp h; decide +kernel
  case pos => subst h₂; obtain rfl := Option.some_inj.mp h; decide +kernel
  case pos => cases h
  case pos => subst h₄; obtain rfl := Option.some_inj.mp h; decide +kernel
  case pos => subst h₅; obtain rfl := Option.some_inj.mp h; decide +kernel
  case pos => subst h₆; obtain rfl := Option.some_inj.mp h; decide +kernel
  case pos => subst h₇; obtain rfl := Option.some_inj.mp h; decide +kernel
  case pos => subst h₈; obtain rfl := Option.some_inj.mp h; decide +kernel
  case neg => cases h

theorem findByUriPrefix_decimal (n : ℕ) : findByUriPrefix (decimal n) = none := by
  unfold findByUriPrefix
  rw [List.find?_eq_none]
  intro type _ h
  have hscan := (isUnreserved_of_altUriPrefix (of_decide_eq_true h)).2.2.1
  rw [scanDecimal_decimal] at hscan
  cases hscan

namespace Component

theorem mem_writeUriEscapedValue {value : Bytes} {c : UInt8} (h : c ∈ writeUriEscapedValue value) :
    isUnreserved c = true ∨ c = percent := by
  rcases List.mem_append.mp h with h | h
  · split_ifs at h
    · have hc : c = period := by simpa using h
      rw [hc]
      exact .inl (by decide)
    · cases h
  · rcases mem_escape h with h | h | ⟨n, hn, rfl⟩
    · exact .inl h
    · exact .inr h
    · exact .inl (isUnreserved_toHexChar hn true)

theorem writeUriEscapedValue_ne_nil (value : Bytes) : writeUriEscapedValue value ≠ [] := by
  unfold writeUriEscapedValue
  split_ifs with hall
  · simp
  · cases value with
    | nil => simp at hall
    | cons x value =>
      rw [List.nil_append, escape, List.flatMap_cons]
      split_ifs <;> simp

theorem mem_writeUri {c : Component} {x : UInt8} (h : x ∈ c.writeUri) : isUnreserved x = true ∨ x = percent ∨ x = equals := by
  rcases List.mem_append.mp h with h | h
  · rcases List.mem_append.mp h with h | h
    · exact .inl (isUnreserved_of_isDigit (isDigit_of_mem_decimal h))
    · exact .inr (.inr (List.mem_singleton.mp h))
  · rcases mem_writeUriEscapedValue h with h | h
    · exact .inl h
    · exact .inr (.inl h)

/-- **The characters of a component** in either form. -/
theorem mem_toUri {format : UriFormat} {c : Component} {x : UInt8} (h : x ∈ c.toUri format) :
    isUnreserved x = true ∨ x = percent ∨ x = equals := by
  cases format with
  | canonical => exact mem_writeUri h
  | alternate =>
    unfold toUri at h
    have hword : ∀ uriPrefix, (componentType c.type).altUriPrefix = some (ascii uriPrefix) → x ∈ ascii uriPrefix ++ [equals] →
        isUnreserved x = true ∨ x = percent ∨ x = equals := by
      intro uriPrefix hprefix hx
      rcases List.mem_append.mp hx with hx | hx
      · exact .inl ((isUnreserved_of_altUriPrefix hprefix).1 x hx)
      · exact .inr (.inr (List.mem_singleton.mp hx))
    cases htype : componentType c.type with
    | plain =>
      simp only [htype] at h
      exact mem_writeUri h
    | generic =>
      simp only [htype] at h
      rcases mem_writeUriEscapedValue h with h | h
      · exact .inl h
      · exact .inr (.inl h)
    | sha256 typeName uriPrefix =>
      simp only [htype] at h
      rcases List.mem_append.mp h with h | h
      · exact hword uriPrefix (by rw [htype]; rfl) h
      · obtain ⟨b, -, hx⟩ := List.mem_flatMap.mp h
        have hb := b.toNat_lt
        rcases List.mem_cons.mp hx with rfl | hx
        · exact .inl (isUnreserved_toHexChar (by omega) false)
        · obtain rfl := List.mem_singleton.mp hx
          exact .inl (isUnreserved_toHexChar (by omega) false)
    | decimal typeName uriPrefix =>
      simp only [htype] at h
      split_ifs at h
      · rcases List.mem_append.mp h with h | h
        · exact hword uriPrefix (by rw [htype]; rfl) h
        · exact .inl (isUnreserved_of_isDigit (isDigit_of_mem_decimal h))
      · exact mem_writeUri h

theorem slash_notMem_toUri (format : UriFormat) (c : Component) : slash ∉ c.toUri format := by
  intro h
  rcases mem_toUri h with h | h | h <;> exact absurd h (by decide)

theorem toUri_ne_nil (format : UriFormat) (c : Component) : c.toUri format ≠ [] := by
  have hplain : c.writeUri ≠ [] := by simp [writeUri]
  cases format with
  | canonical => exact hplain
  | alternate =>
    unfold toUri
    cases htype : componentType c.type with
    | plain => exact hplain
    | generic => exact writeUriEscapedValue_ne_nil c.value
    | sha256 typeName uriPrefix => simp
    | decimal typeName uriPrefix =>
      dsimp only
      split_ifs
      · simp
      · exact hplain

/-! ## Components that are restored -/

theorem make_eq_ok_iff {type : ℕ} {value : Bytes} {c : Component} :
    make type value = .ok c ↔ c = ⟨type, value⟩ ∧ c.Valid := by
  have hvalid : (⟨type, value⟩ : Component).Valid ↔ ¬ (type < 1 ∨ 65535 < type) ∧ (IsDigestType type → value.length = 32) :=
    ⟨fun h => ⟨by have := h.min; have := h.max; simp only at *; omega, h.digest⟩,
      fun h => ⟨by simp only; omega, by simp only; omega, h.2⟩⟩
  constructor
  · intro h
    have hrange : ¬ (type < 1 ∨ 65535 < type) := by
      intro hrange
      rw [make, if_pos hrange] at h
      cases h
    rw [make, if_neg hrange] at h
    suffices hdigest : c = ⟨type, value⟩ ∧ (IsDigestType type → value.length = 32) from
      ⟨hdigest.1, hdigest.1 ▸ hvalid.mpr ⟨hrange, hdigest.2⟩⟩
    unfold componentType at h
    unfold IsDigestType
    split_ifs at h <;> simp_all
  · rintro ⟨rfl, h⟩
    obtain ⟨hrange, hdigest⟩ := hvalid.mp h
    unfold make
    rw [if_neg hrange]
    unfold IsDigestType at hdigest
    unfold componentType
    split_ifs <;> simp_all

/-- **The escaped form of a value** is read as that value. -/
theorem parseUriEscapedValue_writeUriEscapedValue (type : ℕ) (value : Bytes) :
    parseUriEscapedValue type (writeUriEscapedValue value) = make type value := by
  have hvalue : unescape (writeUriEscapedValue value) =
      (if value.all (· = period) then [period, period, period] else []) ++ value := by
    unfold writeUriEscapedValue
    split_ifs
    · change unescape (period :: period :: period :: escape isUnreserved value) = _
      iterate 3 rw [unescape_cons_of_ne (by decide)]
      rw [unescape_escape isUnreserved_percent]
      rfl
    · rw [List.nil_append, List.nil_append, unescape_escape isUnreserved_percent]
  unfold parseUriEscapedValue
  rw [hvalue]
  by_cases hall : value.all (· = period) = true
  · rw [if_pos hall]
    dsimp only
    have hvalue : value = List.replicate value.length period := List.eq_replicate_of_mem (by simpa using hall)
    rw [if_pos (by simpa using hall), if_neg (by simp), hvalue]
    congr 1
    change List.take _ (List.replicate 3 period ++ _) = _
    rw [List.replicate_append_replicate, List.take_replicate, List.length_append, List.length_replicate]
    congr 1
    simp
  · rw [if_neg hall]
    dsimp only
    rw [List.nil_append, if_neg hall]

theorem split_equals {typePrefix : Bytes} (h : equals ∉ typePrefix) (value : Bytes) :
    (typePrefix ++ [equals] ++ value).dropWhile (· ≠ equals) = equals :: value ∧
      (typePrefix ++ [equals] ++ value).takeWhile (· ≠ equals) = typePrefix := by
  have hall : ∀ x ∈ typePrefix, decide (x ≠ equals) = true := fun x hx => decide_eq_true fun hxe => h (hxe ▸ hx)
  rw [List.append_assoc, List.dropWhile_append_of_pos hall, List.takeWhile_append_of_pos hall]
  simp

theorem fromEscapedString_decimal (type : ℕ) (value : Bytes) : fromEscapedString (decimal type ++ [equals] ++ value) =
    if 1 ≤ type ∧ type ≤ 65535 then parseUriEscapedValue type value else .error (.unknownPrefix (decimal type)) := by
  have hnot : equals ∉ decimal type := fun h => absurd (isDigit_of_mem_decimal h) (by decide)
  obtain ⟨hdrop, htake⟩ := split_equals hnot value
  unfold fromEscapedString
  rw [hdrop, htake]
  dsimp only
  rw [scanDecimal_decimal, Option.getD_some, findByUriPrefix_decimal]
  simp

theorem fromEscapedString_altUriPrefix {type : ℕ} {uriPrefix : Bytes} (h : (componentType type).altUriPrefix = some uriPrefix)
    (value : Bytes) : fromEscapedString (uriPrefix ++ [equals] ++ value) = parseAltUriValue type value := by
  obtain ⟨hunreserved, -, hscan, hfind⟩ := isUnreserved_of_altUriPrefix h
  have hnot : equals ∉ uriPrefix := fun h => absurd (hunreserved _ h) (by decide)
  obtain ⟨hdrop, htake⟩ := split_equals hnot value
  unfold fromEscapedString
  rw [hdrop, htake]
  dsimp only
  rw [hscan, hfind]
  simp

theorem fromEscapedString_writeUriEscapedValue (value : Bytes) : fromEscapedString (writeUriEscapedValue value) = make 8 value := by
  have hall : ∀ x ∈ writeUriEscapedValue value, decide (x ≠ equals) = true := by
    intro x hx
    refine decide_eq_true fun hxe => ?_
    rcases mem_writeUriEscapedValue (hxe ▸ hx) with h | h <;> exact absurd h (by decide)
  unfold fromEscapedString
  rw [List.dropWhile_eq_nil_iff.mpr hall]
  exact parseUriEscapedValue_writeUriEscapedValue 8 value

/-- **The canonical form** is read as the component when it is valid. -/
theorem fromEscapedString_writeUri (c : Component) : fromEscapedString c.writeUri = .ok c ↔ c.Valid := by
  unfold writeUri
  rw [fromEscapedString_decimal, parseUriEscapedValue_writeUriEscapedValue]
  by_cases hrange : 1 ≤ c.type ∧ c.type ≤ 65535
  · rw [if_pos hrange, make_eq_ok_iff]
    exact ⟨fun h => h.2, fun h => ⟨rfl, h⟩⟩
  · rw [if_neg hrange]
    constructor
    · rintro ⟨⟩
    · exact fun h => absurd ⟨h.min, h.max⟩ hrange

/-! ## Components with numbers -/

def IsDecimalType (type : ℕ) : Prop := type = 50 ∨ type = 52 ∨ type = 54 ∨ type = 56 ∨ type = 58

instance (type : ℕ) : Decidable (IsDecimalType type) := inferInstanceAs (Decidable (_ ∨ _))

/-- A value that is written as a number has no more octets than `fromNumber` gives it. -/
def IsShortest (c : Component) : Prop :=
  IsDecimalType c.type → c.isNumber = true → c.value.length = Tlv.sizeOfNonNegativeInteger (Tlv.ofBytes c.value)

instance (c : Component) : Decidable c.IsShortest := inferInstanceAs (Decidable (_ → _))

theorem isDecimalType_iff {type : ℕ} : IsDecimalType type ↔ ∃ typeName uriPrefix, componentType type = .decimal typeName uriPrefix := by
  unfold IsDecimalType
  constructor
  · rintro (rfl | rfl | rfl | rfl | rfl) <;> exact ⟨_, _, rfl⟩
  · rintro ⟨_, _, h⟩
    by_contra hnot
    simp only [not_or] at hnot
    simp only [componentType, hnot, if_false] at h
    split_ifs at h

theorem eq_generic {type : ℕ} (h : componentType type = .generic) : type = 8 := by
  by_contra hnot
  simp only [componentType, hnot, if_false] at h
  split_ifs at h

theorem encodeNonNegativeInteger_ofBytes {value : Bytes} :
    LpPacket.encodeNonNegativeInteger (Tlv.ofBytes value) = value ↔
      value.length = Tlv.sizeOfNonNegativeInteger (Tlv.ofBytes value) := by
  unfold LpPacket.encodeNonNegativeInteger
  constructor
  · intro h
    rw [← congrArg List.length h, Tlv.length_toBytes]
  · intro h
    rw [← h, Tlv.toBytes_ofBytes]

/-- **A number is read as the value** of the fewest octets. -/
theorem parseAltUriValue_decimal {c : Component} {typeName uriPrefix : String}
    (h : componentType c.type = .decimal typeName uriPrefix) (hlen : c.isNumber = true) :
    parseAltUriValue c.type (decimal (Tlv.ofBytes c.value)) = .ok c ↔
      c.value.length = Tlv.sizeOfNonNegativeInteger (Tlv.ofBytes c.value) := by
  have hlt : Tlv.ofBytes c.value < 2 ^ 64 := by
    have hle : c.value.length ≤ 8 := by
      unfold isNumber at hlen
      simp at hlen
      omega
    exact (Tlv.ofBytes_lt c.value).trans_le (Nat.pow_le_pow_right (by decide) hle)
  have hdecimal : IsDecimalType c.type := isDecimalType_iff.mpr ⟨_, _, h⟩
  unfold parseAltUriValue
  rw [h]
  dsimp only
  rw [scanDecimal_decimal]
  dsimp only
  rw [if_neg (Nat.not_le.mpr hlt), if_neg (not_not.mpr rfl), make_eq_ok_iff, ← encodeNonNegativeInteger_ofBytes]
  constructor
  · rintro ⟨hc, -⟩
    exact (congrArg value hc).symm
  · intro henc
    refine ⟨by rw [henc], ⟨?_, ?_, ?_⟩⟩ <;> unfold IsDecimalType at hdecimal
    · omega
    · omega
    · unfold IsDigestType
      omega

/-- **The alternate form** is read as the component when it is valid and, where it is a number, in the fewest octets. -/
theorem fromEscapedString_alternate (c : Component) :
    fromEscapedString (c.toUri .alternate) = .ok c ↔ c.Valid ∧ c.IsShortest := by
  have hplain (hnot : IsDecimalType c.type → c.isNumber ≠ true) : fromEscapedString c.writeUri = .ok c ↔ c.Valid ∧ c.IsShortest := by
    rw [fromEscapedString_writeUri]
    exact ⟨fun h => ⟨h, fun hdecimal hnumber => absurd hnumber (hnot hdecimal)⟩, And.left⟩
  unfold toUri
  cases htype : componentType c.type with
  | plain =>
    refine hplain fun hdecimal => ?_
    obtain ⟨_, _, h⟩ := isDecimalType_iff.mp hdecimal
    cases htype.symm.trans h
  | generic =>
    dsimp only
    have h8 := eq_generic htype
    rw [fromEscapedString_writeUriEscapedValue, make_eq_ok_iff]
    constructor
    · rintro ⟨-, hvalid⟩
      refine ⟨hvalid, fun hdecimal => ?_⟩
      rw [h8] at hdecimal
      exact absurd hdecimal (by decide)
    · rintro ⟨hvalid, -⟩
      exact ⟨by rw [← h8], hvalid⟩
  | sha256 typeName uriPrefix =>
    dsimp only
    rw [fromEscapedString_altUriPrefix (by rw [htype]; rfl)]
    unfold parseAltUriValue
    rw [htype]
    dsimp only
    rw [fromHex_printHex]
    dsimp only
    rw [make_eq_ok_iff]
    constructor
    · rintro ⟨-, hvalid⟩
      refine ⟨hvalid, fun hdecimal => ?_⟩
      obtain ⟨_, _, h⟩ := isDecimalType_iff.mp hdecimal
      cases htype.symm.trans h
    · rintro ⟨hvalid, -⟩
      exact ⟨rfl, hvalid⟩
  | decimal typeName uriPrefix =>
    dsimp only
    have hdecimal : IsDecimalType c.type := isDecimalType_iff.mpr ⟨_, _, htype⟩
    by_cases hnumber : c.isNumber = true
    · rw [if_pos hnumber, fromEscapedString_altUriPrefix (by rw [htype]; rfl), parseAltUriValue_decimal htype hnumber]
      constructor
      · intro hlen
        refine ⟨⟨?_, ?_, ?_⟩, fun _ _ => hlen⟩ <;> unfold IsDecimalType at hdecimal
        · omega
        · omega
        · unfold IsDigestType
          omega
      · rintro ⟨-, hshortest⟩
        exact hshortest hdecimal hnumber
    · rw [if_neg hnumber]
      exact hplain fun _ => hnumber

end Component

namespace Name

/-! ## Names that are restored -/

section Parse

/-- **What comes before the next slash** is one component. -/
theorem parseComponents_append {text : Bytes} (h : slash ∉ text) (component rest : Bytes) :
    parseComponents component (text ++ rest) = parseComponents (component ++ text) rest := by
  induction text generalizing component with
  | nil => rw [List.nil_append, List.append_nil]
  | cons x text ih =>
    obtain ⟨hx, htext⟩ := List.ne_and_not_mem_of_not_mem_cons h
    rw [List.cons_append, parseComponents, if_neg hx.symm, ih htext, List.append_assoc, List.singleton_append]

theorem parseComponents_flatMap (format : UriFormat) (n : Name) {component : Bytes} (hne : component ≠ []) :
    parseComponents component (n.flatMap fun c => slash :: c.toUri format) =
      (Component.fromEscapedString component).bind fun c =>
        (n.mapM fun c => Component.fromEscapedString (c.toUri format)).map fun n => c :: n := by
  induction n generalizing component with
  | nil =>
    rw [List.flatMap_nil, parseComponents, if_neg hne]
    cases Component.fromEscapedString component <;> rfl
  | cons c n ih =>
    rw [List.flatMap_cons, List.cons_append, parseComponents, if_pos rfl,
      parseComponents_append (Component.slash_notMem_toUri format c), List.nil_append,
      ih (Component.toUri_ne_nil format c), List.mapM_cons]
    cases Component.fromEscapedString component with
    | error => rfl
    | ok d =>
      cases Component.fromEscapedString (c.toUri format) with
      | error => rfl
      | ok c => cases List.mapM (fun c => Component.fromEscapedString (c.toUri format)) n <;> rfl

theorem ofUri_slash {text : Bytes} (hne : text ≠ []) (hslash : text.head? ≠ some slash) :
    ofUri (slash :: text) = parseComponents [] text := by
  cases text with
  | nil => exact absurd rfl hne
  | cons x text =>
    have hx : x ≠ slash := fun h => hslash (congrArg some h)
    have hscheme : dropScheme (slash :: x :: text) = slash :: x :: text := by
      unfold dropScheme
      rw [List.takeWhile_cons_of_neg (by simp), if_neg List.not_mem_nil]
    unfold ofUri
    rw [if_neg (List.cons_ne_nil _ _), hscheme]
    unfold dropAuthority
    dsimp only
    rw [if_pos rfl, if_neg hx]

theorem ofUri_toUri_eq (format : UriFormat) (n : Name) :
    ofUri (n.toUri format) = n.mapM fun c => Component.fromEscapedString (c.toUri format) := by
  cases n with
  | nil => rfl
  | cons c n =>
    have hc := Component.slash_notMem_toUri format c
    have hne := Component.toUri_ne_nil format c
    unfold toUri
    rw [if_neg (List.cons_ne_nil _ _), List.flatMap_cons, List.cons_append, ofUri_slash, parseComponents_append hc,
      List.nil_append, parseComponents_flatMap format n hne, List.mapM_cons]
    · cases Component.fromEscapedString (c.toUri format) with
      | error => rfl
      | ok c => cases List.mapM (fun c => Component.fromEscapedString (c.toUri format)) n <;> rfl
    · simp [hne]
    · intro hhead
      rw [List.head?_append_of_ne_nil _ hne] at hhead
      exact hc (List.mem_of_mem_head? hhead)

/-- **A name is restored** when its components are. -/
theorem ofUri_toUri (format : UriFormat) (n : Name) :
    ofUri (n.toUri format) = .ok n ↔ ∀ c ∈ n, Component.fromEscapedString (c.toUri format) = .ok c := by
  rw [ofUri_toUri_eq]
  induction n with
  | nil => exact ⟨fun _ _ h => absurd h List.not_mem_nil, fun _ => rfl⟩
  | cons c n ih =>
    rw [List.mapM_cons, List.forall_mem_cons, ← ih]
    cases Component.fromEscapedString (c.toUri format) with
    | error => exact ⟨fun h => (nomatch h), fun h => (nomatch h.1)⟩
    | ok d =>
      cases List.mapM (fun c => Component.fromEscapedString (c.toUri format)) n with
      | error => exact ⟨fun h => (nomatch h), fun h => (nomatch h.2)⟩
      | ok m =>
        change Except.ok (d :: m) = _ ↔ _
        simp

end Parse

/-- **The canonical form of a name** is read as that name if and only if its components are valid. -/
theorem canonical_roundTrip_iff (n : Name) : ofUri (n.toUri .canonical) = .ok n ↔ n.Valid := by
  rw [ofUri_toUri]
  exact forall₂_congr fun c _ => Component.fromEscapedString_writeUri c

/-- A name whose only component is a digest of one byte can be decoded, and its URI cannot be. -/
theorem not_canonical_roundTrip_digest :
    Encoding.decodeName ⟨7, [7, 3, 1, 1, 65], [1, 1, 65]⟩ = .ok [⟨1, [65]⟩] ∧
      ofUri (toUri .canonical [⟨1, [65]⟩]) = .error (.digestLength "ImplicitSha256DigestComponent") := by
  have hcomponent : Encoding.IsTlv ⟨1, [1, 1, 65], [65]⟩ := rfl
  constructor
  · exact Encoding.decodeName_wires 7 [7, 3, 1, 1, 65] [⟨1, [1, 1, 65], [65]⟩] (List.forall_mem_singleton.mpr hcomponent)
  · rfl

/-- **The alternate form of a name** is read as that name if and only if its components are valid and the values of its
numbers have the fewest octets. -/
theorem alternate_roundTrip_iff (n : Name) :
    ofUri (n.toUri .alternate) = .ok n ↔ n.Valid ∧ ∀ c ∈ n, c.IsShortest := by
  rw [ofUri_toUri]
  constructor
  · intro h
    exact ⟨fun c hc => ((Component.fromEscapedString_alternate c).mp (h c hc)).1,
      fun c hc => ((Component.fromEscapedString_alternate c).mp (h c hc)).2⟩
  · rintro ⟨hvalid, hshortest⟩ c hc
    exact (Component.fromEscapedString_alternate c).mpr ⟨hvalid c hc, hshortest c hc⟩

/-- A segment of two octets that is 1 comes back with one octet. -/
theorem not_alternate_roundTrip_segment :
    Valid [⟨50, [0, 1]⟩] ∧ toUri .alternate [⟨50, [0, 1]⟩] = ascii "/seg=1" ∧
      ofUri (toUri .alternate [⟨50, [0, 1]⟩]) = .ok [⟨50, [1]⟩] := by
  refine ⟨by decide, ?_, ?_⟩
  · rfl
  · rfl

end Name

end Ns3Ndn
