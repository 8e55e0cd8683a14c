import Ns3Ndn.Encoding.Block
import Ns3Ndn.Name

/-!
# Decoding an Interest, and the expiry of its PIT record

`Interest::wireDecode` of `ndn-cxx/interest.cpp` and `FaceRecord::update` of `NFD/daemon/table/pit-face-record.cpp`. The
lifetime is a number of up to 64 bits on the wire and a signed count of milliseconds in the Interest. A number from `2^63`
on becomes negative there, which the setter of the field does not allow.

* `wireLifetime`, **`interestLifetime_wireDecode`**: the lifetime of a decoded Interest;
* **`saneExpiry_iff`**: the Interests for which the record expires when it should.
-/

namespace Ns3Ndn.Encoding

/-! ## Types -/

def tlvParametersSha256DigestComponent : ℕ := 2
def tlvInterest : ℕ := 5
def tlvName : ℕ := 7
def tlvNonce : ℕ := 10
def tlvInterestLifetime : ℕ := 12
def tlvMustBeFresh : ℕ := 18
def tlvForwardingHint : ℕ := 30
def tlvLinkDelegation : ℕ := 31
def tlvCanBePrefix : ℕ := 33
def tlvHopLimit : ℕ := 34
def tlvApplicationParameters : ℕ := 36

def isCriticalType (type : ℕ) : Bool := type ≤ 31 ∨ type % 2 = 1

/-- A signed number of 64 bits made of an unsigned one. -/
def toInt64 (n : ℕ) : ℤ := (n : ℤ).bmod (2 ^ 64)

/-- A result that is a signed number of 64 bits. -/
def checkInt64 (n : ℤ) : Option ℤ := if -2 ^ 63 ≤ n ∧ n < 2 ^ 63 then some n else none

/-! ## Interests -/

/-- The lifetime is in milliseconds. -/
structure Interest where
  name : Name
  canBePrefix : Bool := false
  mustBeFresh : Bool := false
  forwardingHint : List Name := []
  nonce : Option Bytes := none
  interestLifetime : ℤ := 4000
  hopLimit : Option UInt8 := none
  /-- The ApplicationParameters and the elements after them. -/
  parameters : List Element := []
deriving DecidableEq

def Interest.hasApplicationParameters (i : Interest) : Bool := ! i.parameters.isEmpty

def Element.elements (e : Element) : Except String (List Element) :=
  match e.toBlock.parse with
  | (.ok (), b) => .ok b.elements
  | (.error err, _) => .error err.what

def decodeName (e : Element) : Except String Name := e.elements.map (List.map fun c => ⟨c.type, c.value⟩)

theorem decodeName_wires (type : ℕ) (wire : Bytes) (es : List Element) (hes : ∀ e ∈ es, IsTlv e) :
    decodeName ⟨type, wire, wires es⟩ = .ok (es.map fun c => ⟨c.type, c.value⟩) := by
  rw [decodeName, Element.elements, Element.toBlock, parse_wires type es hes]
  rfl

/-- `findParametersDigestComponent`: whether there is one, or more than one, which is the result -2. -/
def isParametersSha256Digest (c : Component) : Bool := c.type = tlvParametersSha256DigestComponent ∧ c.value.length = 32

def countParametersDigests (name : Name) : ℕ := name.countP isParametersSha256Digest

/-- `isParametersDigestValid`. -/
def isParametersDigestValid (sha256 : Bytes → Bytes) (i : Interest) : Bool :=
  match i.name.find? isParametersSha256Digest with
  | none => ! i.hasApplicationParameters
  | some c => i.hasApplicationParameters && c.value == sha256 (wires i.parameters)

/-- `readNonNegativeInteger`. -/
def readNonNegativeInteger (e : Element) : Except String ℕ :=
  if e.value.length = 1 ∨ e.value.length = 2 ∨ e.value.length = 4 ∨ e.value.length = 8 then .ok (Tlv.ofBytes e.value)
  else .error ("Invalid length " ++ toString e.value.length ++ " for NonNegativeInteger")

def decodeDelegation (del : Element) : Except String Name := do
  let elements ← del.elements
  match elements.find? fun e => e.type = tlvName with
  | some e => decodeName e
  | none =>
    .error ("No sub-element of type " ++ toString tlvName ++ " found in block of type " ++ toString del.type)

def decodeForwardingHint : List Element → Except String (List Name)
  | [] => .ok []
  | del :: rest =>
    if del.type = tlvName then
      match decodeName del with
      | .ok name => (decodeForwardingHint rest).map (name :: ·)
      | .error _ => .error "Invalid Name in ForwardingHint"
    else if del.type = tlvLinkDelegation then
      match decodeDelegation del with
      | .ok name => (decodeForwardingHint rest).map (name :: ·)
      | .error _ => .error "Invalid Name in ForwardingHint.Delegation"
    else if isCriticalType del.type then
      .error ("Unexpected TLV-TYPE " ++ toString del.type ++ " while decoding ForwardingHint")
    else decodeForwardingHint rest

/-- An element after the name. `lastElement` is the place in the order of the specification of the last one that was
recognized. -/
def decodeElement (element : Element) (lastElement : ℕ) (i : Interest) : Except String (ℕ × Interest) :=
  if element.type = tlvCanBePrefix then
    if lastElement ≥ 2 then .error "CanBePrefix element is out of order"
    else if element.value.length ≠ 0 then .error "CanBePrefix element has non-zero TLV-LENGTH"
    else .ok (2, { i with canBePrefix := true })
  else if element.type = tlvMustBeFresh then
    if lastElement ≥ 3 then .error "MustBeFresh element is out of order"
    else if element.value.length ≠ 0 then .error "MustBeFresh element has non-zero TLV-LENGTH"
    else .ok (3, { i with mustBeFresh := true })
  else if element.type = tlvForwardingHint then
    if lastElement ≥ 4 then .error "ForwardingHint element is out of order"
    else (element.elements.bind decodeForwardingHint).map fun names => (4, { i with forwardingHint := names })
  else if element.type = tlvNonce then
    if lastElement ≥ 5 then .error "Nonce element is out of order"
    else if element.value.length ≠ 4 then .error "Nonce element is malformed"
    else .ok (5, { i with nonce := some element.value })
  else if element.type = tlvInterestLifetime then
    if lastElement ≥ 6 then .error "InterestLifetime element is out of order"
    else (readNonNegativeInteger element).map fun number => (6, { i with interestLifetime := toInt64 number })
  else if element.type = tlvHopLimit then
    -- it is not critical, and is ignored when it is out of order
    if lastElement ≥ 7 then .ok (lastElement, i)
    else match element.value with
      | [hopLimit] => .ok (7, { i with hopLimit := some hopLimit })
      | _ => .error "HopLimit element is malformed"
  else if element.type = tlvApplicationParameters then
    if lastElement ≥ 8 then .ok (lastElement, i)
    else .ok (8, { i with parameters := i.parameters ++ [element] })
  else if isCriticalType element.type then
    .error ("Unrecognized element of critical type " ++ toString element.type)
  else if i.hasApplicationParameters then .ok (lastElement, { i with parameters := i.parameters ++ [element] })
  else .ok (lastElement, i)

def decodeElements : List Element → ℕ → Interest → Except String Interest
  | [], _, i => .ok i
  | element :: rest, lastElement, i =>
    match decodeElement element lastElement i with
    | .ok (lastElement, i) => decodeElements rest lastElement i
    | .error e => .error e

/-- `Interest::wireDecode`, when the digest of the parameters is checked. What a call that throws has written is left out. -/
def wireDecode (sha256 : Bytes → Bytes) (wire : Block) : Except String Interest :=
  if wire.type ≠ tlvInterest then .error ("Expecting Interest element, but TLV has type " ++ toString wire.type)
  else match wire.parse with
    | (.error e, _) => .error e.what
    | (.ok (), wire) =>
      match wire.elements with
      | [] => .error "Name element is missing or out of order"
      | element :: rest =>
        if element.type ≠ tlvName then .error "Name element is missing or out of order"
        else match decodeName element with
          | .error e => .error e
          | .ok name =>
            if name = [] then .error "Name has zero name components"
            else if countParametersDigests name > 1 then .error "Name has more than one ParametersSha256DigestComponent"
            else match decodeElements rest 1 { name := name } with
              | .error e => .error e
              | .ok i =>
                if isParametersDigestValid sha256 i then .ok i
                else .error "ParametersSha256DigestComponent does not match the SHA-256 of Interest parameters"

/-- Ten days, in milliseconds. -/
def maxLifetime : ℤ := 10 * 24 * 60 * 60 * 1000

/-- A record of a PIT entry. Its times are in nanoseconds. -/
structure FaceRecord where
  lastNonce : Bytes
  lastRenewed : ℤ
  expiry : ℤ
deriving DecidableEq

/-- `FaceRecord::update` at a time. There is no result if a number is out of the range of its type. A nonce is made for an
Interest without one. -/
def FaceRecord.update (now : ℤ) (generated : Bytes) (interest : Interest) : Option FaceRecord := do
  let lifetime := min interest.interestLifetime maxLifetime
  let nanoseconds ← checkInt64 (lifetime * 1000000)
  let expiry ← checkInt64 (now + nanoseconds)
  return { lastNonce := interest.nonce.getD generated, lastRenewed := now, expiry := expiry }

/-! ## The lifetime of a decoded Interest -/

def wireLifetime (elements : List Element) : ℕ :=
  match elements.find? fun e => e.type = tlvInterestLifetime with
  | some e => Tlv.ofBytes e.value
  | none => 4000

section Lifetime

variable {element : Element} {elements : List Element} {lastElement lastElement' : ℕ} {i i' : Interest}

theorem readNonNegativeInteger_ok {number : ℕ} (h : readNonNegativeInteger element = .ok number) :
    number = Tlv.ofBytes element.value ∧ number < 2 ^ 64 := by
  unfold readNonNegativeInteger at h
  split_ifs at h with hlen
  obtain rfl := Except.ok.inj h
  refine ⟨rfl, (Tlv.ofBytes_lt _).trans_le ?_⟩
  calc 256 ^ element.value.length ≤ 256 ^ 8 := Nat.pow_le_pow_right (by decide) (by omega)
    _ = 2 ^ 64 := by norm_num

theorem decodeElement_interestLifetime (htype : element.type = tlvInterestLifetime)
    (h : decodeElement element lastElement i = .ok (lastElement', i')) :
    lastElement < 6 ∧ lastElement' = 6 ∧ i'.interestLifetime = toInt64 (Tlv.ofBytes element.value) ∧
      Tlv.ofBytes element.value < 2 ^ 64 := by
  unfold decodeElement at h
  simp only [htype] at h
  by_cases hlast : lastElement ≥ 6
  · simp [tlvInterestLifetime, tlvCanBePrefix, tlvMustBeFresh, tlvForwardingHint, tlvNonce, hlast] at h
  · cases hnumber : readNonNegativeInteger element with
    | error e => simp [tlvInterestLifetime, tlvCanBePrefix, tlvMustBeFresh, tlvForwardingHint, tlvNonce, hlast, hnumber,
        Except.map] at h
    | ok number =>
      obtain ⟨hval, hlt⟩ := readNonNegativeInteger_ok hnumber
      simp only [tlvInterestLifetime, tlvCanBePrefix, tlvMustBeFresh, tlvForwardingHint, tlvNonce, hlast, hnumber, Except.map,
        if_false, if_true] at h
      obtain ⟨rfl, rfl⟩ : 6 = lastElement' ∧ { i with interestLifetime := toInt64 number } = i' := by simpa using h
      rw [← hval]
      refine ⟨by omega, rfl, ?_, hlt⟩
      dsimp only

theorem decodeElement_of_ne (htype : element.type ≠ tlvInterestLifetime)
    (h : decodeElement element lastElement i = .ok (lastElement', i')) :
    lastElement ≤ lastElement' ∧ i'.interestLifetime = i.interestLifetime := by
  unfold decodeElement at h
  split_ifs at h
  all_goals try
    obtain ⟨rfl, rfl⟩ := Prod.mk.injEq .. ▸ Except.ok.inj h
    exact ⟨by omega, rfl⟩
  · -- the ForwardingHint
    cases hnames : element.elements.bind decodeForwardingHint with
    | error e => simp [hnames, Except.map] at h
    | ok names =>
      rw [hnames] at h
      obtain ⟨rfl, rfl⟩ : 4 = lastElement' ∧ { i with forwardingHint := names } = i' := by simpa [Except.map] using h
      exact ⟨by omega, rfl⟩
  · -- the HopLimit
    split at h
    · obtain ⟨rfl, rfl⟩ := Prod.mk.injEq .. ▸ Except.ok.inj h
      exact ⟨by omega, rfl⟩
    · cases h

/-- **The elements after the name**: the first InterestLifetime is the only one. -/
theorem decodeElements_lifetime (h : decodeElements elements lastElement i = .ok i') :
    match elements.find? fun e => e.type = tlvInterestLifetime with
    | some e => lastElement < 6 ∧ i'.interestLifetime = toInt64 (Tlv.ofBytes e.value) ∧ Tlv.ofBytes e.value < 2 ^ 64
    | none => i'.interestLifetime = i.interestLifetime := by
  induction elements generalizing lastElement i with
  | nil =>
    obtain rfl := Except.ok.inj h
    rfl
  | cons element rest ih =>
    unfold decodeElements at h
    cases hstep : decodeElement element lastElement i with
    | error e => simp [hstep] at h
    | ok r =>
      obtain ⟨last, i₁⟩ := r
      rw [hstep] at h
      have hrest := ih h
      by_cases htype : element.type = tlvInterestLifetime
      · obtain ⟨hlt, rfl, hlife, hnumber⟩ := decodeElement_interestLifetime htype hstep
        rw [List.find?_cons_of_pos (by simpa using htype)]
        cases hfind : rest.find? fun e => e.type = tlvInterestLifetime with
        | none =>
          rw [hfind] at hrest
          exact ⟨hlt, hrest.trans hlife, hnumber⟩
        | some e =>
          rw [hfind] at hrest
          exact absurd hrest.1 (lt_irrefl 6)
      · obtain ⟨hle, hlife⟩ := decodeElement_of_ne htype hstep
        rw [List.find?_cons_of_neg (by simpa using htype)]
        cases hfind : rest.find? fun e => e.type = tlvInterestLifetime with
        | none =>
          rw [hfind] at hrest
          exact hrest.trans hlife
        | some e =>
          rw [hfind] at hrest
          exact ⟨hle.trans_lt hrest.1, hrest.2⟩

theorem wireDecode_ok {sha256 : Bytes → Bytes} {wire : Block} (h : wireDecode sha256 wire = .ok i) :
    ∃ element rest name, wire.parse.2.elements = element :: rest ∧ element.type = tlvName ∧
      decodeElements rest 1 { name := name } = .ok i := by
  unfold wireDecode at h
  split_ifs at h with htype
  rcases hparse : wire.parse with ⟨_ | _, b⟩
  · simp [hparse] at h
  · simp only [hparse] at h
    rcases helements : b.elements with _ | ⟨element, rest⟩
    · simp [helements] at h
    · simp only [helements] at h
      split_ifs at h with hname
      rcases hdecode : decodeName element with e | name
      · simp [hdecode] at h
      · simp only [hdecode] at h
        split_ifs at h
        rcases hrest : decodeElements rest 1 { name := name } with e | r
        · simp [hrest] at h
        · simp only [hrest] at h
          split_ifs at h
          obtain rfl := Except.ok.inj h
          exact ⟨element, rest, name, rfl, not_not.mp hname, hrest⟩

/-- **The lifetime** of an accepted Interest is the number on the wire, as a signed number. -/
theorem interestLifetime_wireDecode {sha256 : Bytes → Bytes} {wire : Block} (h : wireDecode sha256 wire = .ok i) :
    i.interestLifetime = toInt64 (wireLifetime wire.parse.2.elements) ∧ wireLifetime wire.parse.2.elements < 2 ^ 64 := by
  obtain ⟨element, rest, name, helements, hname, hrest⟩ := wireDecode_ok h
  have hlife := decodeElements_lifetime hrest
  have htype : ¬ element.type = tlvInterestLifetime := by
    rw [hname]
    decide
  unfold wireLifetime
  rw [helements, List.find?_cons_of_neg (by simpa using htype)]
  cases hfind : rest.find? fun e => e.type = tlvInterestLifetime with
  | none =>
    rw [hfind] at hlife
    exact ⟨hlife, by decide⟩
  | some e =>
    rw [hfind] at hlife
    exact hlife.2

end Lifetime

/-! ## Expiry -/

/-- The decoded lifetime is one that can be set, and a record of the Interest expires after the lifetime, or after ten days
if that is earlier. -/
structure SaneExpiry (now : ℤ) (generated : Bytes) (i : Interest) : Prop where
  nonneg : 0 ≤ i.interestLifetime
  expiry : ∃ r, FaceRecord.update now generated i = some r ∧ r.lastRenewed = now ∧
    r.expiry = now + min i.interestLifetime maxLifetime * 1000000 ∧ r.lastRenewed ≤ r.expiry

theorem update_eq_some {now : ℤ} {generated : Bytes} {i : Interest} (hlife : 0 ≤ i.interestLifetime) (hnow : -2 ^ 63 ≤ now)
    (hend : now + min i.interestLifetime maxLifetime * 1000000 < 2 ^ 63) :
    FaceRecord.update now generated i =
      some ⟨i.nonce.getD generated, now, now + min i.interestLifetime maxLifetime * 1000000⟩ := by
  have hmin : 0 ≤ min i.interestLifetime maxLifetime ∧ min i.interestLifetime maxLifetime ≤ 864000000 :=
    ⟨le_min hlife (by decide), min_le_right _ _⟩
  unfold FaceRecord.update checkInt64
  dsimp only
  rw [if_pos (by omega), Option.bind_eq_bind, Option.bind_some, if_pos (by omega)]
  rfl

theorem checkInt64_eq_some {n m : ℤ} (h : checkInt64 n = some m) : m < 2 ^ 63 := by
  unfold checkInt64 at h
  split_ifs at h with hrange
  obtain rfl := Option.some_inj.mp h
  exact hrange.2

theorem expiry_lt {now : ℤ} {generated : Bytes} {i : Interest} {r : FaceRecord} (h : FaceRecord.update now generated i = some r) :
    r.expiry < 2 ^ 63 := by
  unfold FaceRecord.update at h
  obtain ⟨nanoseconds, -, h⟩ := Option.bind_eq_some_iff.mp h
  obtain ⟨expiry, hexpiry, h⟩ := Option.bind_eq_some_iff.mp h
  obtain rfl := Option.some_inj.mp h
  exact checkInt64_eq_some hexpiry

theorem toInt64_eq {n : ℕ} (h : n < 2 ^ 64) : (n < 2 ^ 63 → toInt64 n = n) ∧ (2 ^ 63 ≤ n → toInt64 n < 0) := by
  unfold toInt64
  rw [Int.bmod_def]
  constructor
  · intro hlt
    rw [if_pos (by omega)]
    omega
  · intro hge
    rw [if_neg (by omega)]
    omega

/-- **The expiry is sane** exactly for a lifetime below `2^63`, as long as the clock does not run out. -/
theorem saneExpiry_iff (sha256 : Bytes → Bytes) (wire : Block) (i : Interest) (now : ℤ) (generated : Bytes)
    (h : wireDecode sha256 wire = .ok i) (hnow : -2 ^ 63 ≤ now) :
    SaneExpiry now generated i ↔ wireLifetime wire.parse.2.elements < 2 ^ 63 ∧
      now + min (wireLifetime wire.parse.2.elements : ℤ) maxLifetime * 1000000 < 2 ^ 63 := by
  obtain ⟨hlife, hlt⟩ := interestLifetime_wireDecode h
  obtain ⟨hpos, hneg⟩ := toInt64_eq hlt
  rw [← hlife] at hpos hneg
  constructor
  · rintro ⟨hnonneg, r, hr, hrenewed, hexpiry, hle⟩
    have hsmall : wireLifetime wire.parse.2.elements < 2 ^ 63 := by
      by_contra hge
      have := hneg (not_lt.mp hge)
      omega
    refine ⟨hsmall, ?_⟩
    rw [← hpos hsmall, ← hexpiry]
    exact expiry_lt hr
  · rintro ⟨hsmall, hend⟩
    have hlife' := hpos hsmall
    rw [← hlife'] at hend
    have hnonneg : 0 ≤ i.interestLifetime := by omega
    have hmin : 0 ≤ min i.interestLifetime maxLifetime := le_min hnonneg (by decide)
    exact ⟨hnonneg, _, update_eq_some hnonneg hnow hend, rfl, rfl, by
      change now ≤ now + min i.interestLifetime maxLifetime * 1000000
      omega⟩

/-- An Interest for `/A` with a lifetime of eight octets. -/
def nameElement : Element := ⟨tlvName, [7, 3, 8, 1, 65], [8, 1, 65]⟩

def lifetimeElement (octets : Bytes) : Element := ⟨tlvInterestLifetime, 12 :: 8 :: octets, octets⟩

def lifetimeInterest (octets : Bytes) : Block := { type := tlvInterest, value := wires [nameElement, lifetimeElement octets] }

theorem isTlv_nameElement : IsTlv nameElement := by rfl

variable {octets : Bytes}

theorem isTlv_lifetimeElement (h : octets.length = 8) : IsTlv (lifetimeElement octets) := by
  unfold IsTlv lifetimeElement
  rw [h]
  rfl

theorem decodeName_nameElement : decodeName nameElement = .ok [⟨8, [65]⟩] :=
  decodeName_wires tlvName _ [⟨8, [8, 1, 65], [65]⟩] (List.forall_mem_singleton.mpr rfl)

theorem wireDecode_lifetimeInterest (sha256 : Bytes → Bytes) (h : octets.length = 8) :
    wireDecode sha256 (lifetimeInterest octets) =
      .ok { name := [⟨8, [65]⟩], interestLifetime := toInt64 (Tlv.ofBytes octets) } := by
  have hparse : (lifetimeInterest octets).parse =
      (.ok (), { lifetimeInterest octets with elements := [nameElement, lifetimeElement octets] }) :=
    parse_wires tlvInterest _ (List.forall_mem_cons.mpr ⟨isTlv_nameElement, by simpa using isTlv_lifetimeElement h⟩)
  have hread : readNonNegativeInteger (lifetimeElement octets) = .ok (Tlv.ofBytes octets) := by
    simp [readNonNegativeInteger, lifetimeElement, h]
  have helement : decodeElements [lifetimeElement octets] 1 { name := [⟨8, [65]⟩] } =
      .ok { name := [⟨8, [65]⟩], interestLifetime := toInt64 (Tlv.ofBytes octets) } := by
    rw [decodeElements, decodeElement, hread]
    rfl
  rw [wireDecode, if_neg (by simp [lifetimeInterest]), hparse]
  dsimp only
  rw [if_neg (by simp [nameElement]), decodeName_nameElement]
  dsimp only
  rw [if_neg (by simp), if_neg (by decide), helement]
  rfl

theorem parse_lifetimeInterest (h : octets.length = 8) :
    wireLifetime (lifetimeInterest octets).parse.2.elements = Tlv.ofBytes octets := by
  have hparse : (lifetimeInterest octets).parse =
      (.ok (), { lifetimeInterest octets with elements := [nameElement, lifetimeElement octets] }) :=
    parse_wires tlvInterest _ (List.forall_mem_cons.mpr ⟨isTlv_nameElement, by simpa using isTlv_lifetimeElement h⟩)
  rw [hparse]
  rfl

/-- A lifetime of one second, at the time zero. -/
theorem saneExpiry_oneSecond : SaneExpiry 0 [0, 0, 0, 0] { name := [⟨8, [65]⟩], interestLifetime := toInt64 1000 } :=
  (saneExpiry_iff (fun _ => []) (lifetimeInterest [0, 0, 0, 0, 0, 0, 3, 232]) _ 0 [0, 0, 0, 0]
    (wireDecode_lifetimeInterest (fun _ => []) rfl) (by decide)).mpr (by rw [parse_lifetimeInterest rfl]; decide)

/-- The greatest number of 64 bits is a lifetime of minus one millisecond, and the record expires before it is renewed. -/
theorem not_saneExpiry_negative : ∃ i r, wireDecode (fun _ => []) (lifetimeInterest (List.replicate 8 255)) = .ok i ∧
    i.interestLifetime = -1 ∧ FaceRecord.update 1000000000 [0, 0, 0, 0] i = some r ∧ r.lastRenewed = 1000000000 ∧
    r.expiry = 999000000 ∧ ¬ SaneExpiry 1000000000 [0, 0, 0, 0] i := by
  refine ⟨_, ⟨[0, 0, 0, 0], 1000000000, 999000000⟩, wireDecode_lifetimeInterest _ rfl, by decide, by decide, rfl, rfl, ?_⟩
  rintro ⟨hnonneg, -⟩
  exact absurd hnonneg (by decide)

end Ns3Ndn.Encoding
