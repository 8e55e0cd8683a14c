import Ns3Ndn.Face.LpPacket

/-!
# Parsing a block into its elements

`Block::parse` of `ndn-cxx/encoding/block.cpp`, with the throwing `tlv::readVarNumber` and `tlv::readType` of
`ndn-cxx/encoding/tlv.hpp`. The elements are added one by one to a list in the block, and a block whose list is not empty
is not parsed again. When the length of an element is too large, the list is cleared before the exception is thrown. When
a type or a length cannot be read, it is not.

* `IsTlv`, `wires`: elements and the bytes they make up, **`exists_split`**: the elements at the beginning of a value;
* `AllOrNothing`: a failed call leaves nothing behind, **`allOrNothing_iff`**: the values of which this holds.
-/

namespace Ns3Ndn.Encoding

/-! ## Reading -/

/-- The exceptions, with what their texts name. -/
inductive TlvError where
  | emptyBuffer
  | insufficientData
  | illegalType (type : ℕ)
  | exceedsBoundary (type : ℕ)
deriving DecidableEq

def TlvError.what : TlvError → String
  | emptyBuffer => "Empty buffer during TLV parsing"
  | insufficientData => "Insufficient data during TLV parsing"
  | illegalType type => "Illegal TLV-TYPE " ++ toString type
  | exceedsBoundary type =>
    "TLV-LENGTH of sub-element of type " ++ toString type ++ " exceeds TLV-VALUE boundary of parent block"

/-- The `readVarNumber` that throws. -/
def readVarNumber (pos : Bytes) : Except TlvError (ℕ × Bytes) :=
  if pos = [] then .error .emptyBuffer
  else match Tlv.readVarNumber pos with
    | some r => .ok r
    | none => .error .insufficientData

def readType (pos : Bytes) : Except TlvError (ℕ × Bytes) :=
  match readVarNumber pos with
  | .error e => .error e
  | .ok (type, pos) => if type = 0 ∨ 0xFFFFFFFF < type then .error (.illegalType type) else .ok (type, pos)

/-! ## Blocks -/

structure Element where
  type : ℕ
  wire : Bytes
  value : Bytes
deriving DecidableEq

structure Block where
  type : ℕ
  value : Bytes
  elements : List Element := []
deriving DecidableEq

def Element.toBlock (e : Element) : Block := { type := e.type, value := e.value }

/-- The type and the length of an element, and the bytes after them. -/
def readHeader (begin : Bytes) : Except TlvError (ℕ × ℕ × Bytes) :=
  match readType begin with
  | .error e => .error e
  | .ok (type, pos) =>
    match readVarNumber pos with
    | .error e => .error e
    | .ok (length, pos) => .ok (type, length, pos)

section Reading

variable {b r : Bytes} {n : ℕ}

theorem readVarNumber_eq (h : readVarNumber b = .ok (n, r)) :
    ∃ pre, pre ≠ [] ∧ b = pre ++ r ∧ ∀ s, readVarNumber (pre ++ s) = .ok (n, s) := by
  cases b with
  | nil => cases h
  | cons x rest =>
    rw [readVarNumber, if_neg (List.cons_ne_nil _ _)] at h
    by_cases hx : x.toNat < 253
    · simp only [Tlv.readVarNumber, hx, if_true, Except.ok.injEq, Prod.mk.injEq] at h
      obtain ⟨rfl, rfl⟩ := h
      exact ⟨[x], List.cons_ne_nil _ _, rfl, fun s => by simp [readVarNumber, Tlv.readVarNumber, hx]⟩
    · generalize hsize : (if x.toNat = 253 then 2 else if x.toNat = 254 then 4 else 8) = size at h
      by_cases hlen : rest.length < size
      · simp [Tlv.readVarNumber, hx, hsize, hlen] at h
      · simp only [Tlv.readVarNumber, hx, hsize, hlen, if_false, Except.ok.injEq, Prod.mk.injEq] at h
        obtain ⟨rfl, rfl⟩ := h
        have htake : (rest.take size).length = size := by
          rw [List.length_take]
          omega
        refine ⟨x :: rest.take size, List.cons_ne_nil _ _, by simp, fun s => ?_⟩
        have hle : ¬ (rest.take size ++ s).length < size := by
          rw [List.length_append, htake]
          omega
        rw [readVarNumber, if_neg (by simp), List.cons_append]
        simp only [Tlv.readVarNumber, hx, hsize, hle, if_false, List.take_left' htake, List.drop_left' htake]

theorem readType_eq (h : readType b = .ok (n, r)) :
    ∃ pre, pre ≠ [] ∧ b = pre ++ r ∧ ∀ s, readType (pre ++ s) = .ok (n, s) := by
  unfold readType at h
  cases hnum : readVarNumber b with
  | error e => simp [hnum] at h
  | ok m =>
    obtain ⟨type, pos⟩ := m
    obtain ⟨pre, hne, hb, hpre⟩ := readVarNumber_eq hnum
    by_cases hill : type = 0 ∨ 0xFFFFFFFF < type
    · simp [hnum, hill] at h
    · simp only [hnum, hill, if_false, Except.ok.injEq, Prod.mk.injEq] at h
      obtain ⟨rfl, rfl⟩ := h
      exact ⟨pre, hne, hb, fun s => by simp only [readType, hpre, hill, if_false]⟩

theorem readHeader_eq {length : ℕ} (h : readHeader b = .ok (n, length, r)) :
    ∃ pre, pre ≠ [] ∧ b = pre ++ r ∧ ∀ s, readHeader (pre ++ s) = .ok (n, length, s) := by
  unfold readHeader at h
  cases htype : readType b with
  | error e => simp [htype] at h
  | ok m =>
    obtain ⟨type, pos⟩ := m
    cases hnum : readVarNumber pos with
    | error e => simp [htype, hnum] at h
    | ok m =>
      simp only [htype, hnum, Except.ok.injEq, Prod.mk.injEq] at h
      obtain ⟨rfl, rfl, rfl⟩ := h
      obtain ⟨pre, hne, rfl, hpre⟩ := readType_eq htype
      obtain ⟨pre', -, rfl, hpre'⟩ := readVarNumber_eq hnum
      refine ⟨pre ++ pre', by simp [hne], by rw [List.append_assoc], fun s => ?_⟩
      rw [readHeader, List.append_assoc, hpre]
      simp only [hpre']

theorem length_of_readHeader {length : ℕ} (h : readHeader b = .ok (n, length, r)) : r.length < b.length := by
  obtain ⟨pre, hne, rfl, -⟩ := readHeader_eq h
  have hpos := List.length_pos_iff.mpr hne
  rw [List.length_append]
  omega

end Reading

def parseLoop (begin : Bytes) (elements : List Element) : Except TlvError Unit × List Element :=
  if begin = [] then (.ok (), elements)
  else match h : readHeader begin with
    | .error e => (.error e, elements)
    | .ok (type, length, pos) =>
      if length > pos.length then (.error (.exceedsBoundary type), [])
      else
        let subEnd := pos.drop length
        let element := { type := type, wire := begin.take (begin.length - subEnd.length), value := pos.take length }
        parseLoop subEnd (elements ++ [element])
termination_by begin.length
decreasing_by
  have := length_of_readHeader h
  rw [List.length_drop]
  omega

/-- `Block::parse`. -/
def Block.parse (b : Block) : Except TlvError Unit × Block :=
  if b.elements ≠ [] ∨ b.value = [] then (.ok (), b)
  else
    let (r, elements) := parseLoop b.value b.elements
    (r, { b with elements := elements })

/-! ## Elements -/

def IsTlv (e : Element) : Prop := readHeader e.wire = .ok (e.type, e.value.length, e.value)

def wires (elements : List Element) : Bytes := elements.flatMap Element.wire

section Parsing

variable {begin rest value : Bytes} {elements : List Element}

theorem IsTlv.wire_ne_nil {e : Element} (h : IsTlv e) : e.wire ≠ [] := by
  intro hnil
  have hlt := length_of_readHeader h
  simp [hnil] at hlt

theorem parseLoop_cons {e : Element} (h : IsTlv e) : parseLoop (e.wire ++ rest) elements = parseLoop rest (elements ++ [e]) := by
  obtain ⟨pre, hne, hwire, hpre⟩ := readHeader_eq h
  have hbegin : e.wire ++ rest = pre ++ (e.value ++ rest) := by rw [hwire, List.append_assoc]
  rw [parseLoop, if_neg (by simp [h.wire_ne_nil])]
  split
  · rename_i hheader
    rw [hbegin, hpre] at hheader
    cases hheader
  · rename_i type length pos hheader
    rw [hbegin, hpre] at hheader
    obtain ⟨rfl, rfl, rfl⟩ : e.type = type ∧ e.value.length = length ∧ e.value ++ rest = pos := by simpa using hheader
    have hlen : (e.wire ++ rest).length - rest.length = e.wire.length := by simp
    rw [if_neg (by simp), List.drop_left' rfl]
    dsimp only
    rw [hlen, List.take_left' rfl, List.take_left' rfl]

theorem parseLoop_wires {es : List Element} (h : ∀ e ∈ es, IsTlv e) :
    parseLoop (wires es ++ rest) elements = parseLoop rest (elements ++ es) := by
  induction es generalizing elements with
  | nil => simp [wires]
  | cons e es ih =>
    obtain ⟨he, hes⟩ := List.forall_mem_cons.mp h
    have hwires : wires (e :: es) ++ rest = e.wire ++ (wires es ++ rest) := by simp [wires]
    rw [hwires, parseLoop_cons he, ih hes, List.append_assoc, List.singleton_append]

theorem parseLoop_of_error {e : TlvError} (hne : rest ≠ []) (h : readHeader rest = .error e) :
    parseLoop rest elements = (.error e, elements) := by
  rw [parseLoop, if_neg hne]
  split
  · rename_i hheader
    rw [h] at hheader
    obtain rfl := Except.error.inj hheader
    rfl
  · rename_i hheader
    rw [h] at hheader
    cases hheader

theorem parseLoop_of_exceeds {type length : ℕ} {pos : Bytes} (h : readHeader rest = .ok (type, length, pos))
    (hlt : pos.length < length) : parseLoop rest elements = (.error (.exceedsBoundary type), []) := by
  have hne : rest ≠ [] := by
    rintro rfl
    cases h
  rw [parseLoop, if_neg hne]
  split
  · rename_i hheader
    rw [h] at hheader
    cases hheader
  · rename_i hheader
    rw [h] at hheader
    obtain ⟨rfl, rfl, rfl⟩ : type = _ ∧ length = _ ∧ pos = _ := by simpa using hheader
    rw [if_pos hlt]

/-- **A value** is a list of elements, and then nothing, or something of which no header can be read, or an element that
is too long. -/
theorem exists_split (value : Bytes) :
    ∃ es rest, value = wires es ++ rest ∧ (∀ e ∈ es, IsTlv e) ∧
      (rest = [] ∨ (rest ≠ [] ∧ ∃ e, readHeader rest = .error e) ∨
        ∃ type length pos, readHeader rest = .ok (type, length, pos) ∧ pos.length < length) := by
  induction hn : value.length using Nat.strong_induction_on generalizing value with
  | _ n ih =>
    subst hn
    by_cases hnil : value = []
    · exact ⟨[], value, rfl, by simp, .inl hnil⟩
    cases hheader : readHeader value with
    | error e => exact ⟨[], value, rfl, by simp, .inr (.inl ⟨hnil, e, hheader⟩)⟩
    | ok m =>
      obtain ⟨type, length, pos⟩ := m
      rcases lt_or_ge pos.length length with hlt | hge
      · exact ⟨[], value, rfl, by simp, .inr (.inr ⟨type, length, pos, hheader, hlt⟩)⟩
      · obtain ⟨pre, hne, hvalue, hpre⟩ := readHeader_eq hheader
        have hshort : (pos.drop length).length < value.length := by
          have := length_of_readHeader hheader
          rw [List.length_drop]
          omega
        obtain ⟨es, rest, hsplit, hes, hrest⟩ := ih _ hshort _ rfl
        have htake : (pos.take length).length = length := by
          rw [List.length_take]
          omega
        refine ⟨⟨type, pre ++ pos.take length, pos.take length⟩ :: es, rest, ?_, ?_, hrest⟩
        · rw [hvalue]
          calc pre ++ pos = pre ++ (pos.take length ++ pos.drop length) := by rw [List.take_append_drop]
            _ = _ := by rw [hsplit]; simp [wires]
        · refine List.forall_mem_cons.mpr ⟨?_, hes⟩
          rw [IsTlv, hpre, htake]

/-! ## All or nothing -/

/-- A call that throws leaves no elements, so that the next one throws too, and one that does not leaves the elements that
make up the value. -/
structure AllOrNothing (type : ℕ) (value : Bytes) : Prop where
  throws : ∀ e, (Block.parse { type := type, value := value }).1 = .error e →
    (Block.parse { type := type, value := value }).2.elements = [] ∧ ∃ e', (Block.parse { type := type, value := value }).2.parse.1 = .error e'
  succeeds : (Block.parse { type := type, value := value }).1 = .ok () →
    wires (Block.parse { type := type, value := value }).2.elements = value ∧ ∀ e ∈ (Block.parse { type := type, value := value }).2.elements, IsTlv e

theorem parse_eq (type : ℕ) (hne : value ≠ []) :
    Block.parse { type := type, value := value } = ((parseLoop value []).1, { type := type, value := value, elements := (parseLoop value []).2 }) := by
  simp [Block.parse, hne]

theorem parse_wires (type : ℕ) (es : List Element) (hes : ∀ e ∈ es, IsTlv e) :
    Block.parse { type := type, value := wires es } = (.ok (), { type := type, value := wires es, elements := es }) := by
  cases es with
  | nil => simp [Block.parse, wires]
  | cons e es =>
    have hne : wires (e :: es) ≠ [] := by
      have := (hes e List.mem_cons_self).wire_ne_nil
      simp [wires, this]
    have hloop : parseLoop (wires (e :: es)) [] = (.ok (), e :: es) := by
      have hall : parseLoop (wires (e :: es) ++ []) [] = parseLoop [] ([] ++ (e :: es)) := parseLoop_wires hes
      rw [List.append_nil] at hall
      rw [hall, parseLoop, if_pos rfl, List.nil_append]
    rw [parse_eq type hne, hloop]

theorem AllOrNothing.of_error {type : ℕ} {e : TlvError} (hne : value ≠ []) (h : parseLoop value [] = (.error e, [])) : AllOrNothing type value := by
  have hparse : Block.parse { type := type, value := value } = (.error e, { type := type, value := value }) := by rw [parse_eq type hne, h]
  constructor
  · intro _ _
    rw [hparse]
    exact ⟨rfl, e, congrArg Prod.fst hparse⟩
  · intro hok
    rw [hparse] at hok
    cases hok

/-- **Parsing is all or nothing** exactly for the values in which no bytes without a header come after an element. -/
theorem allOrNothing_iff (type : ℕ) (value : Bytes) :
    AllOrNothing type value ↔ ∀ es rest, value = wires es ++ rest → (∀ e ∈ es, IsTlv e) → es ≠ [] → rest ≠ [] →
      ∀ e, readHeader rest ≠ .error e := by
  constructor
  · rintro h es rest rfl hes hne hrest e hheader
    have hval : wires es ++ rest ≠ [] := by simp [hrest]
    have hloop : parseLoop (wires es ++ rest) [] = (.error e, es) := by
      rw [parseLoop_wires hes, parseLoop_of_error hrest hheader, List.nil_append]
    have hparse := parse_eq type hval
    rw [hloop] at hparse
    have hnil := (h.throws e (by rw [hparse])).1
    rw [hparse] at hnil
    exact hne hnil
  · intro h
    obtain ⟨es, rest, rfl, hes, hrest⟩ := exists_split value
    rcases hrest with rfl | ⟨hne, e, hheader⟩ | ⟨elementType, length, pos, hheader, hlt⟩
    · rw [List.append_nil]
      constructor
      · intro e he
        rw [parse_wires type _ hes] at he
        cases he
      · intro _
        rw [parse_wires type _ hes]
        exact ⟨rfl, hes⟩
    · have hnil : es = [] := by_contra fun hes' => h es rest rfl hes hes' hne e hheader
      subst hnil
      refine .of_error hne (e := e) ?_
      exact parseLoop_of_error hne hheader
    · have hne : rest ≠ [] := by
        rintro rfl
        cases hheader
      refine .of_error (e := .exceedsBoundary elementType) (by simp [hne]) ?_
      rw [parseLoop_wires hes, parseLoop_of_exceeds hheader hlt]

/-- After an element without a value there is a byte that begins a type of two more bytes. The element stays in the block,
and the next call returns as if there were nothing else. -/
theorem not_allOrNothing_truncated : ¬ AllOrNothing 7 [8, 0, 253] := by
  intro h
  have hheader : readHeader [8, 0, 253] = .ok (8, 0, [253]) := by rfl
  have htlv : IsTlv ⟨8, [8, 0], []⟩ := by rfl
  have hrest : readHeader [253] = .error .insufficientData := by rfl
  have hloop : parseLoop ([8, 0] ++ [253]) [] = (.error .insufficientData, [⟨8, [8, 0], []⟩]) :=
    (parseLoop_cons htlv).trans (parseLoop_of_error (List.cons_ne_nil _ _) hrest)
  have hparse : Block.parse { type := 7, value := [8, 0, 253] } =
      (.error .insufficientData, { type := 7, value := [8, 0, 253], elements := [⟨8, [8, 0], []⟩] }) := by
    have hloop' : parseLoop [8, 0, 253] [] = (.error .insufficientData, [⟨8, [8, 0], []⟩]) := hloop
    rw [parse_eq _ (List.cons_ne_nil _ _), hloop']
  have hnil := (h.throws .insufficientData (by rw [hparse])).1
  rw [hparse] at hnil
  cases hnil

end Parsing

end Ns3Ndn.Encoding
