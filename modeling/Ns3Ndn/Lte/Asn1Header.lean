import Ns3Ndn.Lib.BitStream

/-!
# PER primitives of ASN.1

`lte/model/lte-asn1-header.cc`: values are written bit after bit, the highest one first, and a partial octet is kept between the calls. When
they are read, the bits of an octet that are left over are kept.

* `Written`, `Unread`: the bits that are written, and those that are not read yet;
* **`fieldsRoundTrip_iff`**: the values that come back.
-/

namespace Ns3Ndn.Lte

open BitStreamLib

structure Asn1Header where
  serializationPendingBits : UInt8 := 0
  numSerializationPendingBits : ℕ := 0
  serializationResult : List UInt8 := []
  deriving DecidableEq

namespace Asn1Header

section Code

variable {N : ℕ} (data : BitVec N) (h : Asn1Header)

/-! ## Writing -/

def writeOctet (octet : UInt8) : Asn1Header := { h with serializationResult := h.serializationResult ++ [octet] }

/-- The loop that completes a partial octet: `pendingBits` are left, and `mask` is at the next place. -/
def completeLoop : ℕ → UInt8 → Asn1Header → ℕ × Asn1Header
  | 0, _, h => (0, h)
  | p + 1, mask, h =>
    if h.numSerializationPendingBits < 8 then
      completeLoop p ((mask >>> 1) &&& ~~~ mask)
        { h with
          serializationPendingBits := h.serializationPendingBits ||| if data.getLsbD p then mask else 0
          numSerializationPendingBits := h.numSerializationPendingBits + 1 }
    else (p + 1, h)

def remainingLoop : ℕ → UInt8 → UInt8 → UInt8
  | 0, _, pending => pending
  | p + 1, mask, pending => remainingLoop p ((mask >>> 1) &&& ~~~ mask) (pending ||| if data.getLsbD p then mask else 0)

def octetLoop (pendingBits : ℕ) : ℕ → UInt8 → UInt8 → UInt8
  | 0, _, octetToWrite => octetToWrite
  | j + 1, mask, octetToWrite =>
    octetLoop pendingBits j ((mask <<< 1) &&& ~~~ mask) (octetToWrite ||| if data.getLsbD (pendingBits - (j + 1)) then mask else 0)

def bitsetLoop : ℕ → Asn1Header → Asn1Header
  | 0, h => h
  | p + 8, h => bitsetLoop p (h.writeOctet (octetLoop data (p + 8) 8 1 0))
  | p, h =>
    { h with
      serializationPendingBits := remainingLoop data p 0x80 h.serializationPendingBits
      numSerializationPendingBits := p }

def completeOctet (pendingBits : ℕ) : ℕ × Asn1Header :=
  if h.numSerializationPendingBits > 0 then
    let r := completeLoop data pendingBits (mask h.numSerializationPendingBits) h
    if r.2.numSerializationPendingBits ≥ 8 then
      (r.1, { r.2.writeOctet r.2.serializationPendingBits with serializationPendingBits := 0, numSerializationPendingBits := 0 })
    else r
  else (pendingBits, h)

/-- `SerializeBitset`. The number of bits goes through `uint8_t`, and bitsets that need fragmentation are not written. -/
def serializeBitset : Asn1Header :=
  if N = 0 then h
  else if N ≤ 65536 then
    let r := completeOctet data h (N % 256)
    bitsetLoop data r.1 r.2
  else h

def serializeBoolean (value : Bool) : Asn1Header := serializeBitset (BitVec.ofBool value) h

def serializeInteger (n nmin nmax : ℤ) : Option Asn1Header :=
  if nmin ≤ n ∧ n ≤ nmax then
    let range := nmax - nmin + 1
    if range ≤ 1 then some h
    else
      let requiredBits := Nat.clog 2 range.toNat
      if 1 ≤ requiredBits ∧ requiredBits ≤ 20 then some (serializeBitset (BitVec.ofInt requiredBits (n - nmin)) h) else none
  else none

def serializeEnum (numElems selectedElem : ℤ) : Option Asn1Header := h.serializeInteger selectedElem 0 (numElems - 1)

def serializeSequenceOf (numElems nMax nMin : ℤ) : Option Asn1Header := h.serializeInteger numElems nMin nMax

def serializeSequence (isExtensionMarkerPresent : Bool) : Asn1Header :=
  serializeBitset data (if isExtensionMarkerPresent then h.serializeBoolean false else h)

def serializeChoice (numOptions selectedOption : ℤ) (isExtensionMarkerPresent : Bool) : Option Asn1Header :=
  let h := if isExtensionMarkerPresent then h.serializeBoolean false else h
  if numOptions < 2 then some h else h.serializeInteger selectedOption 0 (numOptions - 1)

def finalizeSerialization : Asn1Header :=
  if h.numSerializationPendingBits > 0 then
    serializeBitset h.serializationPendingBits.toBitVec { h with numSerializationPendingBits := 0 }
  else h

/-! ## Reading -/

/-- `std::bitset::set`. -/
def set (data : BitVec N) (i : ℕ) (b : Bool) : BitVec N := if b then data ||| BitVec.twoPow N i else data &&& ~~~ BitVec.twoPow N i

def pendingLoop : ℕ → BitVec N → Asn1Header → ℕ × BitVec N × Asn1Header
  | 0, data, h => (0, data, h)
  | r + 1, data, h =>
    if h.numSerializationPendingBits > 0 then
      pendingLoop r (set data r (decide (h.serializationPendingBits &&& 0x80 ≠ 0)))
        { h with
          serializationPendingBits := h.serializationPendingBits <<< 1
          numSerializationPendingBits := h.numSerializationPendingBits - 1 }
    else (r + 1, data, h)

def readOctetLoop (octet : UInt8) : ℕ → ℕ → UInt8 → BitVec N → BitVec N
  | 0, _, _, data => data
  | n + 1, bitsToRead, mask, data =>
    readOctetLoop octet n (bitsToRead - 1) (mask >>> 1) (set data (bitsToRead - 1) (decide (octet &&& mask ≠ 0)))

def readLoop : ℕ → BitVec N → Asn1Header → List UInt8 → Option (BitVec N × Asn1Header × List UInt8)
  | 0, data, h, bytes => some (data, h, bytes)
  | _ + 1, _, _, [] => none
  | r + 8, data, h, octet :: bytes => readLoop r (readOctetLoop octet 8 (r + 8) 0x80 data) h bytes
  | r, data, h, octet :: bytes =>
    some (readOctetLoop octet r r 0x80 data,
      { h with serializationPendingBits := octet <<< UInt8.ofNat r, numSerializationPendingBits := 8 - r }, bytes)

def deserializeBitset (bytes : List UInt8) : Option (BitVec N × Asn1Header × List UInt8) :=
  let r := pendingLoop N data h
  readLoop r.1 r.2.1 r.2.2 bytes

def deserializeBoolean (bytes : List UInt8) : Option (Bool × Asn1Header × List UInt8) :=
  (deserializeBitset (0 : BitVec 1) h bytes).map fun r => (r.1.getLsbD 0, r.2)

def deserializeInteger (n nmin nmax : ℤ) (bytes : List UInt8) : Option (ℤ × Asn1Header × List UInt8) :=
  let bounds := if nmin > nmax then (nmax, nmin) else (nmin, nmax)
  let range := bounds.2 - bounds.1 + 1
  if range = 1 then some (n, h, bytes)
  else
    let requiredBits := Nat.clog 2 range.toNat
    if 1 ≤ requiredBits ∧ requiredBits ≤ 20 then
      (deserializeBitset (0 : BitVec requiredBits) h bytes).map fun r => (r.1.toNat + bounds.1, r.2)
    else none

def deserializeEnum (numElems selectedElem : ℤ) (bytes : List UInt8) : Option (ℤ × Asn1Header × List UInt8) :=
  h.deserializeInteger selectedElem 0 (numElems - 1) bytes

def deserializeSequenceOf (numElems nMax nMin : ℤ) (bytes : List UInt8) : Option (ℤ × Asn1Header × List UInt8) :=
  h.deserializeInteger numElems nMin nMax bytes

def deserializeMarker (isExtensionMarkerPresent : Bool) (bytes : List UInt8) : Option (Asn1Header × List UInt8) :=
  if isExtensionMarkerPresent then (h.deserializeBoolean bytes).map fun r => r.2 else some (h, bytes)

def deserializeSequence (isExtensionMarkerPresent : Bool) (bytes : List UInt8) : Option (BitVec N × Asn1Header × List UInt8) :=
  (h.deserializeMarker isExtensionMarkerPresent bytes).bind fun r => deserializeBitset data r.1 r.2

def deserializeChoice (numOptions : ℤ) (isExtensionMarkerPresent : Bool) (selectedOption : ℤ) (bytes : List UInt8) :
    Option (ℤ × Asn1Header × List UInt8) :=
  (h.deserializeMarker isExtensionMarkerPresent bytes).bind fun r => r.1.deserializeInteger selectedOption 0 (numOptions - 1) r.2

end Code

end Asn1Header

/-! ## Calls -/

inductive Asn1Call where
  | boolean (value : Bool)
  | integer (n nmin nmax : ℤ)
  | enum (numElems selectedElem : ℤ)
  | choice (numOptions selectedOption : ℤ) (isExtensionMarkerPresent : Bool)
  | sequence (N : ℕ) (optionalOrDefaultMask : BitVec N) (isExtensionMarkerPresent : Bool)
  | sequenceOf (numElems nMax nMin : ℤ)
  | bitstring (N : ℕ) (data : BitVec N)

namespace Asn1Call

def Value : Asn1Call → Type
  | boolean _ => Bool
  | sequence N _ _ | bitstring N _ => BitVec N
  | _ => ℤ

def value : (call : Asn1Call) → call.Value
  | boolean value => value
  | integer n _ _ => n
  | enum _ selectedElem => selectedElem
  | choice _ selectedOption _ => selectedOption
  | sequence _ mask _ => mask
  | sequenceOf numElems _ _ => numElems
  | bitstring _ data => data

def serialize (h : Asn1Header) : Asn1Call → Option Asn1Header
  | boolean value => some (h.serializeBoolean value)
  | integer n nmin nmax => h.serializeInteger n nmin nmax
  | enum numElems selectedElem => h.serializeEnum numElems selectedElem
  | choice numOptions selectedOption marker => h.serializeChoice numOptions selectedOption marker
  | sequence _ mask marker => some (Asn1Header.serializeSequence mask h marker)
  | sequenceOf numElems nMax nMin => h.serializeSequenceOf numElems nMax nMin
  | bitstring _ data => some (Asn1Header.serializeBitset data h)

def deserialize (h : Asn1Header) (bytes : List UInt8) : (call : Asn1Call) → call.Value → Option (call.Value × Asn1Header × List UInt8)
  | boolean _, _ => h.deserializeBoolean bytes
  | integer _ nmin nmax, n => h.deserializeInteger n nmin nmax bytes
  | enum numElems _, selectedElem => h.deserializeEnum numElems selectedElem bytes
  | choice numOptions _ marker, selectedOption => h.deserializeChoice numOptions marker selectedOption bytes
  | sequence _ _ marker, mask => Asn1Header.deserializeSequence mask h marker bytes
  | sequenceOf _ nMax nMin, numElems => h.deserializeSequenceOf numElems nMax nMin bytes
  | bitstring _ _, data => Asn1Header.deserializeBitset data h bytes

end Asn1Call

namespace Asn1Header

variable {N p r : ℕ} {h : Asn1Header} {stream bs rest : List Bool} {data orig : BitVec N}

/-! ## The bits that are written -/

/-- The bits that were written: those of the octets, and those that are pending. -/
def Written (h : Asn1Header) (stream : List Bool) : Prop :=
  ∃ bs, stream = h.serializationResult.flatMap octetBits ++ bs ∧ Holds h.serializationPendingBits bs ∧
    bs.length = h.numSerializationPendingBits ∧ h.numSerializationPendingBits < 8

theorem flatMap_writeOctet (h : Asn1Header) (octet : UInt8) :
    (h.writeOctet octet).serializationResult.flatMap octetBits = h.serializationResult.flatMap octetBits ++ octetBits octet := by
  rw [writeOctet, List.flatMap_append, List.flatMap_singleton]

section

variable (data : BitVec N)

theorem completeLoop_spec (p : ℕ) (hholds : Holds h.serializationPendingBits bs)
    (hlen : bs.length = h.numSerializationPendingBits) :
    ∃ taken p' h', completeLoop data p (mask h.numSerializationPendingBits) h = (p', h') ∧
      bits data.getLsbD p = taken ++ bits data.getLsbD p' ∧ Holds h'.serializationPendingBits (bs ++ taken) ∧
      (bs ++ taken).length = h'.numSerializationPendingBits ∧ h'.serializationResult = h.serializationResult ∧
      (p' = 0 ∨ h'.numSerializationPendingBits = 8) := by
  induction p generalizing h bs with
  | zero => exact ⟨[], 0, h, rfl, rfl, by rwa [List.append_nil], by rwa [List.append_nil], rfl, .inl rfl⟩
  | succ p ih =>
    rw [completeLoop]
    by_cases hlt : h.numSerializationPendingBits < 8
    · have hstep := hholds.concat (hlen.trans_lt hlt) (data.getLsbD p)
      rw [hlen] at hstep
      obtain ⟨taken, p', h', heq, htaken, hholds', hlen', hresult, hend⟩ := ih (h := { h with
        serializationPendingBits := h.serializationPendingBits ||| if data.getLsbD p then mask h.numSerializationPendingBits else 0
        numSerializationPendingBits := h.numSerializationPendingBits + 1 }) hstep (by rw [List.length_append, hlen]; rfl)
      rw [if_pos hlt, mask_step hlt]
      refine ⟨data.getLsbD p :: taken, p', h', heq, by rw [bits, htaken, List.cons_append], ?_, ?_, hresult, hend⟩
      · rwa [List.append_cons]
      · rwa [List.append_cons]
    · have hle := hholds.le
      rw [if_neg hlt]
      exact ⟨[], p + 1, h, rfl, rfl, by rwa [List.append_nil], by rwa [List.append_nil], rfl, .inr (by omega)⟩

theorem remainingLoop_spec {pending : UInt8} (hholds : Holds pending bs) (hle : bs.length + p ≤ 8) :
    Holds (remainingLoop data p (mask bs.length) pending) (bs ++ bits data.getLsbD p) := by
  induction p generalizing pending bs with
  | zero => rwa [remainingLoop, bits, List.append_nil]
  | succ p ih =>
    have hlt : bs.length < 8 := by omega
    have hlen : (bs ++ [data.getLsbD p]).length = bs.length + 1 := by rw [List.length_append]; rfl
    have hnext := ih (hholds.concat hlt (data.getLsbD p)) (by omega)
    rw [hlen] at hnext
    rwa [remainingLoop, mask_step hlt, bits, List.append_cons]

/-- The loop goes from the lowest bit on: `j` bits are not set yet. -/
theorem octetLoop_spec {octet m : UInt8} {j : ℕ} (hj : j ≤ 8) (hm : j ≠ 0 → m = mask (j - 1))
    (hoctet : ∀ i < 8, octet.toNat.testBit i = (decide (i < 8 - j) && data.getLsbD (p + i))) :
    ∀ i < 8, (octetLoop data (p + 8) j m octet).toNat.testBit i = data.getLsbD (p + i) := by
  induction j generalizing octet m with
  | zero =>
    intro i hi
    rw [octetLoop, hoctet i hi, decide_eq_true hi, Bool.true_and]
  | succ j ih =>
    rw [octetLoop]
    have hmask : m = mask j := hm (Nat.succ_ne_zero j)
    have htoNat : m.toNat = 2 ^ (7 - j) := by rw [hmask, toNat_mask hj]
    refine ih (Nat.le_of_succ_le hj) (fun hne => ?_) fun i hi => ?_
    · have hlt : j < 8 := hj
      rw [hmask]
      interval_cases j <;> first | rfl | exact absurd rfl hne
    · have hbit : (if data.getLsbD (p + 8 - (j + 1)) then m else 0 : UInt8).toNat.testBit i =
          (data.getLsbD (p + i) && decide (i = 7 - j)) := by
        by_cases hi' : i = 7 - j
        · rw [show p + 8 - (j + 1) = p + i by omega, decide_eq_true hi', Bool.and_true]
          cases data.getLsbD (p + i) with
          | false => exact Nat.zero_testBit i
          | true => rw [if_pos rfl, htoNat, Nat.testBit_two_pow, decide_eq_true hi'.symm]
        · rw [decide_eq_false hi', Bool.and_false]
          cases data.getLsbD (p + 8 - (j + 1)) with
          | false => exact Nat.zero_testBit i
          | true => rw [if_pos rfl, htoNat, Nat.testBit_two_pow, decide_eq_false fun h => hi' h.symm]
      rw [UInt8.toNat_or, Nat.testBit_or, hoctet i hi, hbit, Bool.and_comm _ (decide (i = 7 - j)), ← Bool.and_or_distrib_right,
        ← Bool.decide_or]
      congr 1
      exact decide_eq_decide.mpr (by omega)

theorem octetBits_octetLoop (p : ℕ) :
    octetBits (octetLoop data (p + 8) 8 1 0) = bits (fun i => data.getLsbD (p + i)) 8 :=
  bits_congr (octetLoop_spec data le_rfl (fun _ => rfl) fun i _ => Nat.zero_testBit i)

theorem bitsetLoop_of_lt (hp : p < 8) (h : Asn1Header) (hnum : h.numSerializationPendingBits = 0) :
    bitsetLoop data p h =
      { h with
        serializationPendingBits := remainingLoop data p 0x80 h.serializationPendingBits
        numSerializationPendingBits := p } := by
  interval_cases p <;> first | rfl | (rw [bitsetLoop, remainingLoop, ← hnum])

theorem bitsetLoop_spec (p : ℕ) (hholds : Holds h.serializationPendingBits []) (hnum : h.numSerializationPendingBits = 0) :
    Written (bitsetLoop data p h) (h.serializationResult.flatMap octetBits ++ bits data.getLsbD p) := by
  induction p using Nat.strong_induction_on generalizing h with
  | _ p ih =>
    rcases Nat.lt_or_ge p 8 with hlt | hge
    · rw [bitsetLoop_of_lt data hlt h hnum]
      exact ⟨_, rfl, remainingLoop_spec data hholds (by rw [List.length_nil]; omega), length_bits _ _, hlt⟩
    · obtain ⟨q, rfl⟩ : ∃ q, p = q + 8 := ⟨p - 8, by omega⟩
      rw [bitsetLoop, bits_add, ← octetBits_octetLoop, ← List.append_assoc, ← flatMap_writeOctet]
      exact ih q (by omega) hholds hnum

end

/-- **A bitset is written.** -/
theorem serializeBitset_spec (hw : Written h stream) (data : BitVec N) (hN : N < 256) :
    Written (serializeBitset data h) (stream ++ bits data.getLsbD N) := by
  rw [serializeBitset, Nat.mod_eq_of_lt hN]
  split_ifs with hzero hlarge
  · subst hzero
    rwa [bits, List.append_nil]
  · obtain ⟨bs, rfl, hholds, hlen, hlt⟩ := hw
    obtain ⟨taken, p, h', heq, htaken, hholds', hlen', hresult, hend⟩ := completeLoop_spec data N hholds hlen
    dsimp only [completeOctet]
    rw [heq]
    dsimp only
    split_ifs with hpos hfull
    · -- the octet is complete
      have hlen8 : (bs ++ taken).length = 8 := le_antisymm hholds'.le (hlen' ▸ hfull)
      have hoctet := hholds'.octetBits
      rw [hlen8, Nat.sub_self, List.replicate_zero, List.append_nil] at hoctet
      rw [htaken, List.append_assoc, ← List.append_assoc bs, ← hoctet, ← List.append_assoc, ← hresult, ← flatMap_writeOctet]
      exact bitsetLoop_spec data _ holds_nil rfl
    · have hnone := hend.resolve_right fun h8 => hfull h8.ge
      rw [hnone, bits, List.append_nil] at htaken
      rw [hnone, bitsetLoop, htaken, List.append_assoc, ← hresult]
      exact ⟨_, rfl, hholds', hlen', Nat.lt_of_not_ge hfull⟩
    · have hnum : h.numSerializationPendingBits = 0 := Nat.eq_zero_of_not_pos hpos
      have hnil : bs = [] := List.eq_nil_of_length_eq_zero (hlen.trans hnum)
      rw [hnil, List.append_nil]
      exact bitsetLoop_spec data N (hnil ▸ hholds) hnum
  · omega

/-- **The last octet is completed with zeros.** -/
theorem finalizeSerialization_spec (hw : Written h stream) :
    ∃ n < 8, h.finalizeSerialization.serializationResult.flatMap octetBits = stream ++ List.replicate n false := by
  obtain ⟨bs, rfl, hholds, hlen, hlt⟩ := hw
  unfold finalizeSerialization
  split_ifs with hpos
  · have hser : serializeBitset h.serializationPendingBits.toBitVec { h with numSerializationPendingBits := 0 } =
        ({ h with numSerializationPendingBits := 0 } : Asn1Header).writeOctet
          (octetLoop h.serializationPendingBits.toBitVec (0 + 8) 8 1 0) := rfl
    have hoctet : octetBits (octetLoop h.serializationPendingBits.toBitVec (0 + 8) 8 1 0) = octetBits h.serializationPendingBits := by
      rw [octetBits_octetLoop]
      exact bits_congr fun i _ => by rw [Nat.zero_add]; rfl
    refine ⟨8 - bs.length, by omega, ?_⟩
    rw [hser, flatMap_writeOctet, hoctet, hholds.octetBits, List.append_assoc]
  · have hnil : bs = [] := List.eq_nil_of_length_eq_zero (hlen.trans (Nat.eq_zero_of_not_pos hpos))
    exact ⟨0, by decide, by rw [hnil, List.append_nil, List.replicate_zero, List.append_nil]⟩

/-! ## The bits that are read -/

/-- The bits that are not read yet: those that are pending, and those of the octets that are left. -/
def Unread (h : Asn1Header) (bytes : List UInt8) (stream : List Bool) : Prop :=
  ∃ bs tail, octetBits h.serializationPendingBits = bs ++ tail ∧ bs.length = h.numSerializationPendingBits ∧
    h.numSerializationPendingBits < 8 ∧ stream = bs ++ bytes.flatMap octetBits

def Agree (data orig : BitVec N) (r : ℕ) : Prop := ∀ i, r ≤ i → i < N → data.getLsbD i = orig.getLsbD i

theorem agree_self (data orig : BitVec N) : Agree data orig N := fun _ hi hi' => absurd hi' (Nat.not_lt.mpr hi)

theorem Agree.eq (hagree : Agree data orig 0) : data = orig := BitVec.eq_of_getLsbD_eq fun i hi => hagree i (Nat.zero_le i) hi

theorem getLsbD_set (data : BitVec N) (b : Bool) {i : ℕ} (hi : i < N) (k : ℕ) :
    (set data k b).getLsbD i = if i = k then b else data.getLsbD i := by
  unfold set
  by_cases hik : i = k
  · subst hik
    cases b <;> simp [hi]
  · cases b <;> simp [hi, hik]

theorem Agree.set (hagree : Agree data orig (r + 1)) {b : Bool} (hb : b = orig.getLsbD r) : Agree (set data r b) orig r := by
  intro i hri hi
  rw [getLsbD_set data b hi]
  split_ifs with hir
  · rw [hir, hb]
  · exact hagree i (by omega) hi

theorem pendingBit_eq {octet : UInt8} {b : Bool} (hbits : octetBits octet = b :: bs) : decide (octet &&& 0x80 ≠ 0) = b := by
  have hmask := and_mask_ne_zero octet (k := 0) (by decide)
  have hb : octet.toNat.testBit (7 - 0) = b := (List.cons.inj hbits).1
  rw [hb] at hmask
  rw [Bool.eq_iff_iff, decide_eq_true_iff]
  exact hmask

theorem pendingLoop_spec {pending tail more : List Bool} (hagree : Agree data orig r)
    (hbits : octetBits h.serializationPendingBits = pending ++ tail) (hlen : pending.length = h.numSerializationPendingBits)
    (hstream : bits orig.getLsbD r ++ rest = pending ++ more) :
    ∃ r' data' h' pending' tail', pendingLoop r data h = (r', data', h') ∧ r' ≤ r ∧ Agree data' orig r' ∧
      octetBits h'.serializationPendingBits = pending' ++ tail' ∧ pending'.length = h'.numSerializationPendingBits ∧
      h'.numSerializationPendingBits ≤ h.numSerializationPendingBits ∧ bits orig.getLsbD r' ++ rest = pending' ++ more ∧
      (r' = 0 ∨ pending' = []) := by
  induction r generalizing data h pending tail with
  | zero => exact ⟨0, data, h, pending, tail, rfl, le_rfl, hagree, hbits, hlen, le_rfl, hstream, .inl rfl⟩
  | succ r ih =>
    rw [pendingLoop]
    cases pending with
    | nil =>
      rw [if_neg (by rw [← hlen]; exact lt_irrefl 0)]
      exact ⟨r + 1, data, h, [], tail, rfl, le_rfl, hagree, hbits, hlen, le_rfl, hstream, .inr rfl⟩
    | cons b pending =>
      rw [List.length_cons] at hlen
      rw [bits, List.cons_append, List.cons_append] at hstream
      obtain ⟨hb, hstream⟩ := List.cons.inj hstream
      have hshift := octetBits_shiftLeft h.serializationPendingBits (k := 1) (by decide)
      rw [hbits, List.cons_append, List.drop_one, List.tail_cons, List.append_assoc] at hshift
      rw [if_pos (by omega), pendingBit_eq hbits]
      obtain ⟨r', data', h', pending', tail', heq, hr, hagree', hbits', hlen', hnum, hstream', hend⟩ :=
        ih (h := { h with
          serializationPendingBits := h.serializationPendingBits <<< 1
          numSerializationPendingBits := h.numSerializationPendingBits - 1 }) (hagree.set hb.symm) hshift
          (show pending.length = h.numSerializationPendingBits - 1 by omega) hstream
      exact ⟨r', data', h', pending', tail', heq, Nat.le_succ_of_le hr, hagree', hbits', hlen', hnum.trans (Nat.sub_le _ 1), hstream', hend⟩

theorem readOctetLoop_spec {octet : UInt8} {n k : ℕ} (hagree : Agree data orig r) (hn : n ≤ r) (hk : k + n ≤ 8)
    (hbits : ∀ j < n, octet.toNat.testBit (7 - (k + j)) = orig.getLsbD (r - 1 - j)) :
    Agree (readOctetLoop octet n r (mask k) data) orig (r - n) := by
  induction n generalizing data r k with
  | zero => exact hagree
  | succ n ih =>
    obtain ⟨r, rfl⟩ : ∃ q, r = q + 1 := ⟨r - 1, by omega⟩
    have hmask : mask k >>> 1 = mask (k + 1) := by
      have hlt : k < 8 := by omega
      interval_cases k <;> rfl
    have hbit : decide (octet &&& mask k ≠ 0) = orig.getLsbD r := by
      rw [Bool.eq_iff_iff, decide_eq_true_iff, and_mask_ne_zero octet (by omega), ← Nat.add_zero k, hbits 0 (Nat.succ_pos n)]
      rfl
    rw [readOctetLoop, hmask, Nat.add_sub_cancel, Nat.add_sub_add_right]
    refine ih (hagree.set hbit) (by omega) (by omega) fun j hj => ?_
    rw [Nat.add_assoc, Nat.add_comm 1 j, hbits (j + 1) (by omega)]
    congr 1
    omega

theorem readOctetLoop_octet {octet : UInt8} {more : List Bool} (hagree : Agree data orig r) {n : ℕ} (hn : n ≤ r) (hn8 : n ≤ 8)
    (hstream : bits orig.getLsbD r ++ rest = octetBits octet ++ more) : Agree (readOctetLoop octet n r 0x80 data) orig (r - n) := by
  refine readOctetLoop_spec (k := 0) hagree hn (by omega) fun j hj => ?_
  have hget := congrArg (fun l => l[j]?) hstream
  rw [List.getElem?_append_left (by rw [length_bits]; omega), List.getElem?_append_left (by rw [length_octetBits]; omega),
    getElem?_bits (by omega), octetBits, getElem?_bits (by omega), Option.some_inj] at hget
  rw [hget, Nat.zero_add]

theorem readLoop_of_lt (hpos : 0 < r) (hlt : r < 8) (data : BitVec N) (h : Asn1Header) (octet : UInt8) (bytes : List UInt8) :
    readLoop r data h (octet :: bytes) = some (readOctetLoop octet r r 0x80 data,
      { h with serializationPendingBits := octet <<< UInt8.ofNat r, numSerializationPendingBits := 8 - r }, bytes) := by
  interval_cases r <;> rfl

theorem readLoop_spec {bytes : List UInt8} (hagree : Agree data orig r) (hnum : h.numSerializationPendingBits = 0)
    (hstream : bits orig.getLsbD r ++ rest = bytes.flatMap octetBits) :
    ∃ h' bytes', readLoop r data h bytes = some (orig, h', bytes') ∧ Unread h' bytes' rest := by
  induction r using Nat.strong_induction_on generalizing data bytes with
  | _ r ih =>
    rcases Nat.eq_zero_or_pos r with rfl | hpos
    · rw [bits, List.nil_append] at hstream
      rw [hagree.eq, readLoop]
      exact ⟨h, bytes, rfl, [], octetBits h.serializationPendingBits, rfl, hnum.symm, by omega, hstream⟩
    · cases bytes with
      | nil =>
        have hlen := congrArg List.length hstream
        rw [List.length_append, length_bits, List.flatMap_nil, List.length_nil] at hlen
        omega
      | cons octet bytes =>
        rw [List.flatMap_cons] at hstream
        rcases Nat.lt_or_ge r 8 with hlt | hge
        · -- the bits that are left over are kept
          rw [readLoop_of_lt hpos hlt]
          have hall : Agree (readOctetLoop octet r r 0x80 data) orig 0 := by
            have hread := readOctetLoop_octet hagree le_rfl hlt.le hstream
            rwa [Nat.sub_self] at hread
          rw [hall.eq]
          refine ⟨_, _, rfl, (octetBits octet).drop r, List.replicate r false, octetBits_shiftLeft octet hlt, ?_, ?_, ?_⟩
          · rw [List.length_drop, length_octetBits]
          · exact Nat.sub_lt (by decide) hpos
          · have hdrop := congrArg (List.drop r) hstream
            rwa [List.drop_append_of_le_length (by rw [length_bits]), List.drop_eq_nil_of_le (by rw [length_bits]), List.nil_append,
              List.drop_append_of_le_length (by rw [length_octetBits]; exact hlt.le)] at hdrop
        · obtain ⟨q, rfl⟩ : ∃ q, r = q + 8 := ⟨r - 8, by omega⟩
          have hread := readOctetLoop_octet hagree (by omega : 8 ≤ q + 8) le_rfl hstream
          rw [bits_add, List.append_assoc] at hstream
          obtain ⟨-, hrest⟩ := List.append_inj hstream (by rw [length_bits, length_octetBits])
          exact ih q (by omega) hread hrest

/-- **A bitset is read**, whatever the destination contains. -/
theorem deserializeBitset_spec {bytes : List UInt8} (hu : Unread h bytes (bits orig.getLsbD N ++ rest)) (data : BitVec N) :
    ∃ h' bytes', deserializeBitset data h bytes = some (orig, h', bytes') ∧ Unread h' bytes' rest := by
  obtain ⟨pending, tail, hbits, hlen, hlt, hstream⟩ := hu
  obtain ⟨r', data', h', pending', tail', heq, -, hagree, hbits', hlen', hnum, hstream', hend⟩ :=
    pendingLoop_spec (agree_self data orig) hbits hlen hstream
  rw [deserializeBitset, heq]
  rcases hend with rfl | rfl
  · rw [bits, List.nil_append] at hstream'
    dsimp only
    rw [hagree.eq, readLoop]
    exact ⟨h', bytes, rfl, pending', tail', hbits', hlen', by omega, hstream'⟩
  · exact readLoop_spec hagree hlen'.symm hstream'

end Asn1Header

namespace Asn1Call

open Asn1Header

variable {h : Asn1Header} {stream rest : List Bool} {bytes : List UInt8}

/-! ## The calls -/

def sequenceSizes : List ℕ := [0, 1, 2, 3, 4, 5, 6, 7, 9, 10, 11]

def bitstringSizes : List ℕ := [1, 2, 8, 10, 16, 27, 28, 32]

/-- The value is in its range, which has at most 2^20 values, and there is an overload for the size of the bitset. -/
def Valid : Asn1Call → Prop
  | boolean _ => True
  | integer n nmin nmax => nmin ≤ n ∧ n ≤ nmax ∧ nmax - nmin + 1 ≤ 2 ^ 20
  | enum numElems selectedElem => 0 ≤ selectedElem ∧ selectedElem < numElems ∧ numElems ≤ 2 ^ 20
  | choice numOptions selectedOption _ => 0 ≤ selectedOption ∧ selectedOption < numOptions ∧ numOptions ≤ 2 ^ 20
  | sequence N _ _ => N ∈ sequenceSizes
  | sequenceOf numElems nMax nMin => nMin ≤ numElems ∧ numElems ≤ nMax ∧ nMax - nMin + 1 ≤ 2 ^ 20
  | bitstring N _ => N ∈ bitstringSizes

def OneValue : Asn1Call → Prop
  | integer _ nmin nmax => nmin = nmax
  | enum numElems _ => numElems = 1
  | choice numOptions _ _ => numOptions = 1
  | sequenceOf _ nMax nMin => nMin = nMax
  | _ => False

/-- The number of bits of a value in a range, and of an extension marker. -/
def numBits : Asn1Call → ℕ
  | boolean _ => 1
  | integer _ nmin nmax => Nat.clog 2 (nmax - nmin + 1).toNat
  | enum numElems _ => Nat.clog 2 numElems.toNat
  | choice numOptions _ marker => (if marker then 1 else 0) + Nat.clog 2 numOptions.toNat
  | sequence N _ marker => (if marker then 1 else 0) + N
  | sequenceOf _ nMax nMin => Nat.clog 2 (nMax - nMin + 1).toNat
  | bitstring N _ => N

instance : DecidablePred OneValue
  | boolean _ | sequence _ _ _ | bitstring _ _ => inferInstanceAs (Decidable False)
  | integer _ nmin nmax => inferInstanceAs (Decidable (nmin = nmax))
  | enum numElems _ => inferInstanceAs (Decidable (numElems = 1))
  | choice numOptions _ _ => inferInstanceAs (Decidable (numOptions = 1))
  | sequenceOf _ nMax nMin => inferInstanceAs (Decidable (nMin = nMax))

def integerBits (n nmin nmax : ℤ) : List Bool :=
  bits (BitVec.ofInt (Nat.clog 2 (nmax - nmin + 1).toNat) (n - nmin)).getLsbD (Nat.clog 2 (nmax - nmin + 1).toNat)

def markerBits (isExtensionMarkerPresent : Bool) : List Bool := if isExtensionMarkerPresent then [false] else []

/-- The bits of a call: those of its value, in as many bits as the range needs, after the extension marker. -/
def toBits : Asn1Call → List Bool
  | boolean value => [value]
  | integer n nmin nmax => integerBits n nmin nmax
  | enum numElems selectedElem => integerBits selectedElem 0 (numElems - 1)
  | choice numOptions selectedOption marker => markerBits marker ++ integerBits selectedOption 0 (numOptions - 1)
  | sequence N mask marker => markerBits marker ++ bits mask.getLsbD N
  | sequenceOf numElems nMax nMin => integerBits numElems nMin nMax
  | bitstring N data => bits data.getLsbD N

theorem length_toBits (call : Asn1Call) : call.toBits.length = call.numBits := by
  cases call <;> simp only [toBits, numBits, integerBits, List.length_append, length_bits, List.length_singleton, sub_zero, sub_add_cancel]
  all_goals
    rename_i marker
    cases marker <;> rfl

theorem serializeBoolean_spec (hw : Written h stream) (value : Bool) : Written (h.serializeBoolean value) (stream ++ [value]) := by
  have hbits : bits (BitVec.ofBool value).getLsbD 1 = [value] := by cases value <;> rfl
  rw [← hbits]
  exact serializeBitset_spec hw _ (by decide)

theorem requiredBits_spec {range : ℤ} (hlt : 1 < range) (hle : range ≤ 2 ^ 20) :
    1 ≤ Nat.clog 2 range.toNat ∧ Nat.clog 2 range.toNat ≤ 20 := by
  constructor
  · exact Nat.clog_pos (by decide) (by omega)
  · exact Nat.clog_le_of_le_pow (by omega)

variable {n nmin nmax : ℤ}

theorem serializeInteger_spec (hw : Written h stream) (hn : nmin ≤ n ∧ n ≤ nmax) (hrange : nmax - nmin + 1 ≤ 2 ^ 20) :
    ∃ h', h.serializeInteger n nmin nmax = some h' ∧ Written h' (stream ++ integerBits n nmin nmax) := by
  rw [serializeInteger, if_pos hn]
  dsimp only
  by_cases hone : nmax - nmin + 1 ≤ 1
  · have hclog : Nat.clog 2 (nmax - nmin + 1).toNat = 0 := Nat.clog_of_right_le_one (by omega) 2
    refine ⟨h, if_pos hone, ?_⟩
    have hnil : integerBits n nmin nmax = [] := List.eq_nil_of_length_eq_zero (by rw [integerBits, length_bits, hclog])
    rwa [hnil, List.append_nil]
  · have hbits := requiredBits_spec (by omega) hrange
    rw [if_neg hone, if_pos hbits]
    exact ⟨_, rfl, serializeBitset_spec hw _ (by omega)⟩

theorem toNat_ofInt (hn : nmin ≤ n ∧ n ≤ nmax) :
    ((BitVec.ofInt (Nat.clog 2 (nmax - nmin + 1).toNat) (n - nmin)).toNat : ℤ) = n - nmin := by
  have hle : (nmax - nmin + 1).toNat ≤ 2 ^ Nat.clog 2 (nmax - nmin + 1).toNat := Nat.le_pow_clog (by decide) _
  have hlt : n - nmin < 2 ^ Nat.clog 2 (nmax - nmin + 1).toNat := by
    have hcast : ((nmax - nmin + 1).toNat : ℤ) ≤ 2 ^ Nat.clog 2 (nmax - nmin + 1).toNat := by exact_mod_cast hle
    omega
  rw [BitVec.toNat_ofInt, Int.toNat_of_nonneg (Int.emod_nonneg _ (by positivity))]
  exact Int.emod_eq_of_lt (by omega) (by exact_mod_cast hlt)

theorem deserializeBoolean_spec {value : Bool} (hu : Unread h bytes ([value] ++ rest)) :
    ∃ h' bytes', h.deserializeBoolean bytes = some (value, h', bytes') ∧ Unread h' bytes' rest := by
  have hbits : bits (BitVec.ofBool value).getLsbD 1 = [value] := by cases value <;> rfl
  rw [← hbits] at hu
  obtain ⟨h', bytes', heq, hu'⟩ := deserializeBitset_spec hu 0
  have hget : (BitVec.ofBool value).getLsbD 0 = value := by cases value <;> rfl
  exact ⟨h', bytes', by rw [deserializeBoolean, heq, Option.map_some, hget], hu'⟩

/-- **An integer is read**, but for the value of a range with one value. -/
theorem deserializeInteger_spec (hn : nmin ≤ n ∧ n ≤ nmax) (hrange : nmax - nmin + 1 ≤ 2 ^ 20)
    (hu : Unread h bytes (integerBits n nmin nmax ++ rest)) (destination : ℤ) :
    ∃ h' bytes', h.deserializeInteger destination nmin nmax bytes = some (if nmin = nmax then destination else n, h', bytes') ∧
      Unread h' bytes' rest := by
  have hbounds : (if nmin > nmax then (nmax, nmin) else (nmin, nmax)) = (nmin, nmax) := if_neg (by omega)
  unfold deserializeInteger
  dsimp only
  rw [hbounds]
  dsimp only
  by_cases hone : nmin = nmax
  · have hclog : Nat.clog 2 (nmax - nmin + 1).toNat = 0 := Nat.clog_of_right_le_one (by omega) 2
    have hnil : integerBits n nmin nmax = [] := List.eq_nil_of_length_eq_zero (by rw [integerBits, length_bits, hclog])
    rw [hnil, List.nil_append] at hu
    rw [if_pos (by omega), if_pos hone]
    exact ⟨h, bytes, rfl, hu⟩
  · obtain ⟨h', bytes', heq, hu'⟩ := deserializeBitset_spec hu 0
    rw [if_neg (by omega), if_pos (requiredBits_spec (by omega) hrange), if_neg hone, heq, Option.map_some, toNat_ofInt hn,
      Int.sub_add_cancel]
    exact ⟨h', bytes', rfl, hu'⟩

theorem deserializeMarker_spec {marker : Bool} (hu : Unread h bytes (markerBits marker ++ rest)) :
    ∃ h' bytes', h.deserializeMarker marker bytes = some (h', bytes') ∧ Unread h' bytes' rest := by
  cases marker with
  | false => exact ⟨h, bytes, rfl, hu⟩
  | true =>
    obtain ⟨h', bytes', heq, hu'⟩ := deserializeBoolean_spec hu
    exact ⟨h', bytes', by rw [deserializeMarker, if_pos rfl, heq, Option.map_some], hu'⟩

theorem serializeMarker_spec (hw : Written h stream) (marker : Bool) :
    Written (if marker then h.serializeBoolean false else h) (stream ++ markerBits marker) := by
  cases marker with
  | false => rwa [markerBits, if_neg Bool.false_ne_true, if_neg Bool.false_ne_true, List.append_nil]
  | true => exact serializeBoolean_spec hw false

theorem size_lt {N : ℕ} (hN : N ∈ sequenceSizes ∨ N ∈ bitstringSizes) : N < 256 := by
  rcases hN with hN | hN <;> fin_cases hN <;> decide

/-- **A call writes its bits.** -/
theorem serialize_spec {call : Asn1Call} (hvalid : call.Valid) (hw : Written h stream) :
    ∃ h', call.serialize h = some h' ∧ Written h' (stream ++ call.toBits) := by
  cases call with
  | boolean value => exact ⟨_, rfl, serializeBoolean_spec hw value⟩
  | integer n nmin nmax => exact serializeInteger_spec hw ⟨hvalid.1, hvalid.2.1⟩ hvalid.2.2
  | enum numElems selectedElem =>
    obtain ⟨hpos, hlt, hle⟩ := hvalid
    exact serializeInteger_spec hw ⟨hpos, by omega⟩ (by omega)
  | choice numOptions selectedOption marker =>
    obtain ⟨hpos, hlt, hle⟩ := hvalid
    have hmarker := serializeMarker_spec hw marker
    obtain ⟨h', heq, hw'⟩ := serializeInteger_spec hmarker (show (0 : ℤ) ≤ selectedOption ∧ selectedOption ≤ numOptions - 1 from ⟨hpos, by omega⟩)
      (by omega)
    rw [List.append_assoc] at hw'
    refine ⟨h', ?_, hw'⟩
    show (if numOptions < 2 then some (if marker then h.serializeBoolean false else h)
      else (if marker then h.serializeBoolean false else h).serializeInteger selectedOption 0 (numOptions - 1)) = some h'
    have hin : 0 ≤ selectedOption ∧ selectedOption ≤ numOptions - 1 := ⟨hpos, by omega⟩
    by_cases htwo : numOptions < 2
    · rw [if_pos htwo, ← heq, serializeInteger, if_pos hin]
      exact (if_pos (by omega : numOptions - 1 - 0 + 1 ≤ 1)).symm
    · rwa [if_neg htwo]
  | sequence N mask marker =>
    have hseq := serializeBitset_spec (serializeMarker_spec hw marker) mask (size_lt (.inl hvalid))
    rw [List.append_assoc] at hseq
    exact ⟨_, rfl, hseq⟩
  | sequenceOf numElems nMax nMin => exact serializeInteger_spec hw ⟨hvalid.1, hvalid.2.1⟩ hvalid.2.2
  | bitstring N data => exact ⟨_, rfl, serializeBitset_spec hw data (size_lt (.inr hvalid))⟩

/-- **A call reads its value back**, but for that of a range with one value. -/
theorem deserialize_spec {call : Asn1Call} (hvalid : call.Valid) (hu : Unread h bytes (call.toBits ++ rest)) (destination : call.Value) :
    ∃ h' bytes', call.deserialize h bytes destination = some (if call.OneValue then destination else call.value, h', bytes') ∧
      Unread h' bytes' rest := by
  cases call with
  | boolean value => exact deserializeBoolean_spec hu
  | integer n nmin nmax => exact deserializeInteger_spec ⟨hvalid.1, hvalid.2.1⟩ hvalid.2.2 hu destination
  | enum numElems selectedElem =>
    obtain ⟨hpos, hlt, hle⟩ := hvalid
    obtain ⟨h', bytes', heq, hu'⟩ := deserializeInteger_spec ⟨hpos, by omega⟩ (by omega) hu destination
    refine ⟨h', bytes', heq.trans ?_, hu'⟩
    exact congrArg (fun v : ℤ => some (v, h', bytes')) (if_congr (by show _ ↔ numElems = 1; omega) rfl rfl)
  | choice numOptions selectedOption marker =>
    obtain ⟨hpos, hlt, hle⟩ := hvalid
    rw [toBits, List.append_assoc] at hu
    obtain ⟨h₁, bytes₁, hmarker, hu₁⟩ := deserializeMarker_spec hu
    obtain ⟨h', bytes', heq, hu'⟩ := deserializeInteger_spec ⟨hpos, by omega⟩ (by omega) hu₁ destination
    refine ⟨h', bytes', ?_, hu'⟩
    show (h.deserializeMarker marker bytes).bind (fun r => r.1.deserializeInteger destination 0 (numOptions - 1) r.2) = _
    rw [hmarker, Option.bind_some]
    exact heq.trans (congrArg (fun v : ℤ => some (v, h', bytes')) (if_congr (by show _ ↔ numOptions = 1; omega) rfl rfl))
  | sequence N mask marker =>
    rw [toBits, List.append_assoc] at hu
    obtain ⟨h₁, bytes₁, hmarker, hu₁⟩ := deserializeMarker_spec hu
    obtain ⟨h', bytes', heq, hu'⟩ := deserializeBitset_spec hu₁ destination
    refine ⟨h', bytes', ?_, hu'⟩
    show (h.deserializeMarker marker bytes).bind (fun r => deserializeBitset destination r.1 r.2) = _
    rw [hmarker, Option.bind_some]
    exact heq
  | sequenceOf numElems nMax nMin => exact deserializeInteger_spec ⟨hvalid.1, hvalid.2.1⟩ hvalid.2.2 hu destination
  | bitstring N data => exact deserializeBitset_spec hu destination

end Asn1Call

/-! ## Runs of calls -/

/-- A call, and what the destination contains that the value is read into. -/
structure Asn1Field where
  call : Asn1Call
  destination : call.Value

namespace Asn1Field

open Asn1Header

variable {h : Asn1Header} {stream rest : List Bool} {bytes : List UInt8}

def serializeAll (fields : List Asn1Field) (h : Asn1Header) : Option Asn1Header := fields.foldlM (fun h field => field.call.serialize h) h

/-- The calls that read, in the same order. -/
def deserializeAll : List Asn1Field → Asn1Header → List UInt8 → Option (List Asn1Field × Asn1Header × List UInt8)
  | [], h, bytes => some ([], h, bytes)
  | field :: fields, h, bytes =>
    (field.call.deserialize h bytes field.destination).bind fun r =>
      (deserializeAll fields r.2.1 r.2.2).map fun rest => (⟨field.call, r.1⟩ :: rest.1, rest.2)

def restored (field : Asn1Field) : Asn1Field := ⟨field.call, field.call.value⟩

/-- **The values come back** in the destinations: there are as many octets as the bits need, and all of them are read. The header that reads
has no bits pending, but the octet for them may have any value. -/
def RoundTrips (fields : List Asn1Field) : Prop :=
  ∃ h, serializeAll fields {} = some h ∧
    h.finalizeSerialization.serializationResult.length = ((fields.map fun field => field.call.numBits).sum + 7) / 8 ∧
    ∀ pending, ∃ h', deserializeAll fields { serializationPendingBits := pending } h.finalizeSerialization.serializationResult =
      some (fields.map restored, h', [])

def readBack (field : Asn1Field) : Asn1Field := ⟨field.call, if field.call.OneValue then field.destination else field.call.value⟩

theorem readBack_eq_restored_iff (field : Asn1Field) :
    field.readBack = field.restored ↔ (field.call.OneValue → field.destination = field.call.value) := by
  rw [readBack, restored, Asn1Field.mk.injEq, heq_eq_eq, and_iff_right rfl]
  split_ifs with hone
  · exact ⟨fun heq _ => heq, fun heq => heq hone⟩
  · exact iff_of_true rfl fun h => absurd h hone

theorem serializeAll_spec {fields : List Asn1Field} (hvalid : ∀ field ∈ fields, field.call.Valid) (hw : Written h stream) :
    ∃ h', serializeAll fields h = some h' ∧ Written h' (stream ++ fields.flatMap fun field => field.call.toBits) := by
  induction fields generalizing h stream with
  | nil => exact ⟨h, rfl, by rwa [List.flatMap_nil, List.append_nil]⟩
  | cons field fields ih =>
    obtain ⟨h₁, heq, hw₁⟩ := Asn1Call.serialize_spec (hvalid field List.mem_cons_self) hw
    obtain ⟨h', heq', hw'⟩ := ih (fun f hf => hvalid f (List.mem_cons_of_mem _ hf)) hw₁
    rw [List.append_assoc] at hw'
    refine ⟨h', ?_, hw'⟩
    rw [serializeAll, List.foldlM_cons, heq]
    exact heq'

theorem deserializeAll_spec {fields : List Asn1Field} (hvalid : ∀ field ∈ fields, field.call.Valid)
    (hu : Unread h bytes ((fields.flatMap fun field => field.call.toBits) ++ rest)) :
    ∃ h' bytes', deserializeAll fields h bytes = some (fields.map readBack, h', bytes') ∧ Unread h' bytes' rest := by
  induction fields generalizing h bytes with
  | nil => exact ⟨h, bytes, rfl, hu⟩
  | cons field fields ih =>
    rw [List.flatMap_cons, List.append_assoc] at hu
    obtain ⟨h₁, bytes₁, heq, hu₁⟩ := Asn1Call.deserialize_spec (hvalid field List.mem_cons_self) hu field.destination
    obtain ⟨h', bytes', heq', hu'⟩ := ih (fun f hf => hvalid f (List.mem_cons_of_mem _ hf)) hu₁
    refine ⟨h', bytes', ?_, hu'⟩
    rw [deserializeAll, heq, Option.bind_some]
    dsimp only
    rw [heq', Option.map_some, List.map_cons, readBack]

theorem Unread.eq_nil (hu : Unread h bytes rest) (hlt : rest.length < 8) : bytes = [] := by
  obtain ⟨bs, tail, -, -, -, rfl⟩ := hu
  rw [List.length_append, length_flatMap_octetBits] at hlt
  exact List.eq_nil_of_length_eq_zero (by omega)

/-- **The values that come back**: of a range with one value, the destination has to have it before. -/
theorem fieldsRoundTrip_iff (fields : List Asn1Field) (hvalid : ∀ field ∈ fields, field.call.Valid) :
    RoundTrips fields ↔ ∀ field ∈ fields, field.call.OneValue → field.destination = field.call.value := by
  have hstart : Written {} [] := ⟨[], rfl, holds_nil, rfl, by decide⟩
  obtain ⟨h, hser, hw⟩ := serializeAll_spec hvalid hstart
  obtain ⟨n, hn, hbits⟩ := finalizeSerialization_spec hw
  rw [List.nil_append] at hbits
  have hlen := congrArg List.length hbits
  rw [length_flatMap_octetBits, List.length_append, List.length_replicate, List.length_flatMap] at hlen
  simp only [Asn1Call.length_toBits] at hlen
  have hread (pending : UInt8) : ∃ h', deserializeAll fields { serializationPendingBits := pending }
      h.finalizeSerialization.serializationResult = some (fields.map readBack, h', []) := by
    have hu : Unread { serializationPendingBits := pending } h.finalizeSerialization.serializationResult
        ((fields.flatMap fun field => field.call.toBits) ++ List.replicate n false) :=
      ⟨[], octetBits pending, rfl, rfl, Nat.succ_pos 7, hbits.symm⟩
    obtain ⟨h', bytes', heq, hu'⟩ := deserializeAll_spec hvalid hu
    exact ⟨h', by rw [heq, Unread.eq_nil hu' (by rwa [List.length_replicate])]⟩
  have hmap : fields.map readBack = fields.map restored ↔
      ∀ field ∈ fields, field.call.OneValue → field.destination = field.call.value := by
    rw [List.map_inj_left]
    exact forall₂_congr fun field _ => readBack_eq_restored_iff field
  rw [← hmap]
  constructor
  · rintro ⟨h₁, hser₁, -, hall⟩
    obtain rfl : h₁ = h := Option.some_inj.mp (hser₁.symm.trans hser)
    obtain ⟨h', heq⟩ := hread 0
    obtain ⟨h'', heq'⟩ := hall 0
    exact congrArg Prod.fst (Option.some_inj.mp (heq.symm.trans heq'))
  · intro hfields
    refine ⟨h, hser, by omega, fun pending => ?_⟩
    rw [← hfields]
    exact hread pending

def oneElement : List Asn1Field := [⟨.sequenceOf 1 1 1, (0 : ℤ)⟩]

theorem fieldsRoundTrip_iff_oneElement :
    RoundTrips oneElement ↔ ∀ field ∈ oneElement, field.call.OneValue → field.destination = field.call.value :=
  fieldsRoundTrip_iff oneElement (by simp [oneElement, Asn1Call.Valid])

/-- The variable keeps what it contains. -/
theorem not_roundTrips_oneElement : ¬ ∀ fields : List Asn1Field, (∀ field ∈ fields, field.call.Valid) → RoundTrips fields := by
  intro h
  obtain ⟨h₁, hser, -, hread⟩ := h oneElement (by simp [oneElement, Asn1Call.Valid])
  obtain ⟨h', heq⟩ := hread 0
  have hone : deserializeAll oneElement {} h₁.finalizeSerialization.serializationResult =
      some (oneElement, {}, h₁.finalizeSerialization.serializationResult) := rfl
  have hfields := congrArg (fun r : Option (List Asn1Field × Asn1Header × List UInt8) => r.map Prod.fst) (hone.symm.trans heq)
  have hzero : (0 : ℤ) = 1 := (readBack_eq_restored_iff ⟨.sequenceOf 1 1 1, (0 : ℤ)⟩).mp (List.cons.inj (Option.some_inj.mp hfields)).1 rfl
  exact absurd hzero (by decide)

end Asn1Field

end Ns3Ndn.Lte
