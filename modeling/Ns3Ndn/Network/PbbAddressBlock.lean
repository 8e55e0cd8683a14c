import Ns3Ndn.Lib.CommonEnds
import Ns3Ndn.Network.PbbTlv

/-!
# Address blocks of PacketBB

`network/utils/packetbb.cc`, `PbbAddressBlock`: the octets that the addresses have in common at their ends are written once. The lengths of
the ends come from one pass over the pairs of neighbours. The tail of a pair may be one octet longer than the tail of the pairs before it,
and addresses that are all equal have their whole length both as a head and as a tail.

* `deserialize_serialize`: what is read of a block that was written;
* **`blockRoundTrips_iff`**: the blocks that come back.
-/

namespace Ns3Ndn

open BytesLib EndsLib

/-- `PbbAddressBlockIpv4` and `PbbAddressBlockIpv6`. -/
inductive PbbAddressFamily where
  | ipv4
  | ipv6
  deriving DecidableEq

def PbbAddressFamily.getAddressLength : PbbAddressFamily → ℕ
  | .ipv4 => 4
  | .ipv6 => 16

/-- A block of addresses of `L` octets. An address is the octets that `SerializeAddress` writes and `DeserializeAddress` reads. -/
structure PbbAddressBlock (L : ℕ) where
  addressList : List (Vector UInt8 L)
  prefixList : List UInt8
  addressTlvList : PbbAddressTlvBlock
  deriving DecidableEq

namespace PbbAddressBlock

def AHAS_HEAD : UInt8 := 0x80

def AHAS_FULL_TAIL : UInt8 := 0x40

def AHAS_ZERO_TAIL : UInt8 := 0x20

def AHAS_SINGLE_PRE_LEN : UInt8 := 0x10

def AHAS_MULTI_PRE_LEN : UInt8 := 0x08

section Code

variable {L : ℕ} (block : PbbAddressBlock L)

/-! ## The common ends -/

def octet (v : Vector UInt8 L) (i : ℕ) : Option UInt8 := v[i]?

def headLoop (buflast bufcur : Vector UInt8 L) : ℕ → ℕ → ℕ
  | 0, i => i
  | n + 1, i => if octet buflast i ≠ octet bufcur i then i else headLoop buflast bufcur n (i + 1)

def tailLoop (buflast bufcur : Vector UInt8 L) (headlen taillen : ℕ) : ℕ → ℕ
  | 0 => 0
  | i + 1 =>
    if L - 1 - (i + 1) ≤ taillen ∧ i + 1 > headlen then
      if octet buflast (i + 1) ≠ octet bufcur (i + 1) then i + 1 else tailLoop buflast bufcur headlen taillen i
    else i + 1

/-- The variables of `GetHeadTail`. -/
structure HeadTail (L : ℕ) where
  headlen : ℕ
  taillen : ℕ
  buflast : Vector UInt8 L
  bufcur : Vector UInt8 L

def headTailLoop : HeadTail L → List (Vector UInt8 L) → HeadTail L
  | s, [] => s
  | s, bufcur :: rest =>
    let headlen := headLoop s.buflast bufcur s.headlen 0
    -- If headlen == fulllen - 1, then tail is 0
    if L - headlen > 0 then
      headTailLoop ⟨headlen, L - 1 - tailLoop s.buflast bufcur headlen s.taillen (L - 1), bufcur, s.buflast⟩ rest
    else if headlen = 0 then ⟨headlen, 0, s.buflast, bufcur⟩
    else headTailLoop ⟨headlen, s.taillen, bufcur, s.buflast⟩ rest

/-- `GetHeadTail`. The iterator is incremented after its value is taken, so that the first address is compared with itself. -/
def getHeadTail : HeadTail L :=
  let first := block.addressList.headD (.replicate L 0)
  headTailLoop ⟨L, L, first, .replicate L 0⟩ block.addressList

def hasZeroTail (tail : List UInt8) : Bool := tail.all fun b => b == 0

def getPrefixFlags : UInt8 :=
  match block.prefixList.length with
  | 0 => 0
  | 1 => AHAS_SINGLE_PRE_LEN
  | _ => AHAS_MULTI_PRE_LEN

/-! ## Writing -/

/-- `GetSerializedSize`, before it is taken as a `uint32_t`: more than the whole length may be taken off. -/
def getSerializedSize : ℤ :=
  2 + (if block.addressList.length = 1 then (L + block.prefixList.length : ℤ)
    else if block.addressList.length > 0 then
      let s := block.getHeadTail
      (if s.headlen > 0 then 1 + s.headlen else 0 : ℤ) +
        (if s.taillen > 0 then 1 + if hasZeroTail (slice s.bufcur (L - s.taillen) s.taillen) then 0 else s.taillen else 0 : ℤ) +
        (L - s.headlen - s.taillen) * block.addressList.length + block.prefixList.length
    else 0) + (PbbAddressTlvBlock.getSerializedSize block.addressTlvList : ℤ)

def endFlags (buf : Vector UInt8 L) (h t : ℕ) : UInt8 :=
  (if h > 0 then AHAS_HEAD else 0) |||
    if t > 0 then if hasZeroTail (slice buf (L - t) t) then AHAS_ZERO_TAIL else AHAS_FULL_TAIL else 0

def serializeEnds (buf : Vector UInt8 L) (h t : ℕ) : List UInt8 :=
  (if h > 0 then .ofNat h :: slice buf 0 h else []) ++
    if t > 0 then .ofNat t :: if hasZeroTail (slice buf (L - t) t) then [] else slice buf (L - t) t else []

/-- `Serialize`. Without addresses the octet for the flags is not written, and `raw` is what is there. -/
def serialize (raw : UInt8) : List UInt8 :=
  .ofNat block.addressList.length ::
    (match block.addressList with
      | [] => [raw]
      | [address] =>
        if block.prefixList.length = 1 then AHAS_SINGLE_PRE_LEN :: address.toList ++ [block.prefixList.headD 0] else 0 :: address.toList
      | _ =>
        let s := block.getHeadTail
        (endFlags s.bufcur s.headlen s.taillen ||| block.getPrefixFlags) :: serializeEnds s.bufcur s.headlen s.taillen ++
          (if s.headlen + s.taillen < L then block.addressList.flatMap fun mid => slice mid s.headlen (L - s.headlen - s.taillen) else []) ++
          block.prefixList) ++
    PbbAddressTlvBlock.serialize block.addressTlvList

/-! ## Reading -/

/-- `Read` of `n` octets to a place of the buffer. -/
def readInto (addrtmp : Vector UInt8 L) (offset n : ℕ) (bytes : List UInt8) : Option (Vector UInt8 L × List UInt8) :=
  if offset + n ≤ L then (takeBytes n bytes).map fun r => (memcpy addrtmp offset r.1, r.2) else none

def deserializeHead (flags : UInt8) (bytes : List UInt8) : Option (ℕ × Vector UInt8 L × List UInt8) :=
  if flags &&& AHAS_HEAD ≠ 0 then
    (readU8 bytes).bind fun headlen => (readInto (.replicate L 0) 0 headlen.1.toNat headlen.2).map fun r => (headlen.1.toNat, r)
  else some (0, .replicate L 0, bytes)

def deserializeTail (flags : UInt8) (addrtmp : Vector UInt8 L) (bytes : List UInt8) : Option (ℕ × Vector UInt8 L × List UInt8) :=
  if (flags &&& AHAS_FULL_TAIL) ^^^ (flags &&& AHAS_ZERO_TAIL) ≠ 0 then
    (readU8 bytes).bind fun taillen =>
      if flags &&& AHAS_FULL_TAIL ≠ 0 then
        if taillen.1.toNat ≤ L then
          (readInto addrtmp (L - taillen.1.toNat) taillen.1.toNat taillen.2).map fun r => (taillen.1.toNat, r)
        else none
      else some (taillen.1.toNat, addrtmp, taillen.2)
  else some (0, addrtmp, bytes)

def addressLoop (headlen taillen : ℕ) : ℕ → Vector UInt8 L → List UInt8 → Option (List (Vector UInt8 L) × List UInt8)
  | 0, _, bytes => some ([], bytes)
  | n + 1, addrtmp, bytes =>
    if headlen + taillen ≤ L then
      (readInto addrtmp headlen (L - headlen - taillen) bytes).bind fun r =>
        (addressLoop headlen taillen n r.1 r.2).map fun rest => (r.1 :: rest.1, rest.2)
    else none

def deserializePrefixes (flags : UInt8) (numaddr : ℕ) (bytes : List UInt8) : Option (List UInt8 × List UInt8) :=
  if flags &&& AHAS_SINGLE_PRE_LEN ≠ 0 then (readU8 bytes).map fun r => ([r.1], r.2)
  else if flags &&& AHAS_MULTI_PRE_LEN ≠ 0 then takeBytes numaddr bytes
  else some ([], bytes)

def deserialize : List UInt8 → Option (PbbAddressBlock L × List UInt8)
  | numaddr :: flags :: bytes =>
    (if numaddr.toNat > 0 then
      (deserializeHead flags bytes).bind fun head => (deserializeTail flags head.2.1 head.2.2).bind fun tail =>
        (addressLoop head.1 tail.1 numaddr.toNat tail.2.1 tail.2.2).bind fun addresses =>
          (deserializePrefixes flags numaddr.toNat addresses.2).map fun prefixes => ((addresses.1, prefixes.1), prefixes.2)
    else some (([], []), bytes)).bind fun r => (PbbAddressTlvBlock.deserialize r.2).map fun tlvs => (⟨r.1.1, r.1.2, tlvs.1⟩, tlvs.2)
  | _ => none

end Code

/-! ## The ends that are found -/

section Ends

variable {L : ℕ} {s : HeadTail L} {seen pre : List (Vector UInt8 L)} {a b buflast bufcur : Vector UInt8 L}

theorem headLoop_eq (buflast bufcur : Vector UInt8 L) (n i : ℕ) :
    headLoop buflast bufcur n i = i + leading (fun j => decide (octet buflast (i + j) = octet bufcur (i + j))) n := by
  induction n generalizing i with
  | zero => rfl
  | succ n ih =>
    rw [headLoop, leading]
    show _ = i + if decide (octet buflast i = octet bufcur i) = true then _ else 0
    by_cases h : octet buflast i = octet bufcur i
    · rw [if_neg (not_not.mpr h), ih, if_pos (decide_eq_true h)]
      simp only [Nat.add_assoc, Nat.add_comm 1]
    · rw [if_pos h, if_neg (fun hp => h (of_decide_eq_true hp))]
      rfl

theorem isLeading_tailLoop {headlen taillen : ℕ} {i : ℕ} (hi : i < L) (hle : L - 1 - i ≤ min (taillen + 1) (L - 1 - headlen))
    (hall : ∀ d < L - 1 - i, octet buflast (L - 1 - d) = octet bufcur (L - 1 - d)) :
    IsLeading (fun d => decide (octet buflast (L - 1 - d) = octet bufcur (L - 1 - d))) (min (taillen + 1) (L - 1 - headlen))
      (L - 1 - tailLoop buflast bufcur headlen taillen i) := by
  induction i with
  | zero => exact ⟨hle, fun d hd => decide_eq_true (hall d hd), fun h => absurd h (by rw [tailLoop]; omega)⟩
  | succ i ih =>
    rw [tailLoop]
    split_ifs with hcond hdiff
    · refine ⟨hle, fun d hd => decide_eq_true (hall d hd), fun _ => decide_eq_false ?_⟩
      rwa [show L - 1 - (L - 1 - (i + 1)) = i + 1 by omega]
    · refine ih (by omega) (by omega) fun d hd => ?_
      rcases (show d ≤ L - 1 - (i + 1) by omega).lt_or_eq with hlt | rfl
      · exact hall d hlt
      · rw [show L - 1 - (L - 1 - (i + 1)) = i + 1 by omega]
        exact not_not.mp hdiff
    · exact ⟨hle, fun d hd => decide_eq_true (hall d hd), fun h => absurd h (by omega)⟩

/-- A turn of the loop over the addresses. -/
def headTailStep (s : HeadTail L) (bufcur : Vector UInt8 L) : HeadTail L :=
  let headlen := headLoop s.buflast bufcur s.headlen 0
  ⟨headlen, if L - headlen > 0 then L - 1 - tailLoop s.buflast bufcur headlen s.taillen (L - 1) else s.taillen, bufcur, s.buflast⟩

theorem headTailLoop_eq (hL : 0 < L) (s : HeadTail L) (l : List (Vector UInt8 L)) : headTailLoop s l = l.foldl headTailStep s := by
  induction l generalizing s with
  | nil => rfl
  | cons bufcur l ih =>
    rw [headTailLoop, List.foldl_cons, headTailStep]
    split_ifs with hpos hzero
    · exact ih _
    · omega
    · exact ih _

/-- What the variables say about the addresses seen so far: the head is right, and the tail is not too short. -/
structure Shared (seen : List (Vector UInt8 L)) (s : HeadTail L) : Prop where
  last : seen.getLast? = some s.buflast
  headlen : s.headlen = commonHead L (seen.map octet)
  whole : s.headlen = L → s.taillen = L
  le_taillen : s.headlen < L → commonTail L (seen.map octet) ≤ s.taillen

theorem Shared.headlen_step (h : Shared seen s) (b : Vector UInt8 L) :
    (headTailStep s b).headlen = commonHead L ((seen ++ [b]).map octet) := by
  have hmem : octet s.buflast ∈ seen.map octet := List.mem_map_of_mem (List.mem_of_getLast? h.last)
  rw [List.map_append, List.map_singleton]
  refine commonHead_concat hmem ?_
  show IsLeading _ _ (headLoop s.buflast b s.headlen 0)
  rw [headLoop_eq, Nat.zero_add, ← h.headlen]
  simp only [Nat.zero_add]
  exact isLeading_leading _ _

theorem taillen_step (hL : 0 < L) (hhead : (headTailStep s b).headlen < L) :
    IsLeading (fun d => decide (octet s.buflast (L - 1 - d) = octet b (L - 1 - d)))
      (min (s.taillen + 1) (L - 1 - (headTailStep s b).headlen)) (headTailStep s b).taillen := by
  have hpos : L - headLoop s.buflast b s.headlen 0 > 0 := Nat.sub_pos_of_lt hhead
  show IsLeading _ _ (if _ then _ else _)
  rw [if_pos hpos]
  exact isLeading_tailLoop (by omega) (by omega) fun d hd => absurd hd (by omega)

theorem Shared.commonTail_le (h : Shared seen s) (b : Vector UInt8 L) : commonTail L ((seen ++ [b]).map octet) ≤ s.taillen := by
  have hold : commonTail L ((seen ++ [b]).map octet) ≤ commonTail L (seen.map octet) := by
    rw [List.map_append]
    exact commonTail_concat_le _ _
  have hcommonHead : s.headlen ≤ L := h.headlen ▸ (isLeading_leading _ L).le
  rcases hcommonHead.lt_or_eq with hs | hs
  · exact hold.trans (h.le_taillen hs)
  · rw [h.whole hs]
    exact (isLeading_leading _ L).le

theorem commonTail_pair (a b : Vector UInt8 L) :
    commonTail L [octet a, octet b] = leading (fun d => decide (octet a (L - 1 - d) = octet b (L - 1 - d))) L := by
  unfold commonTail
  congr 1
  funext d
  rw [Bool.eq_iff_iff, agree_iff]
  simp only [List.forall_mem_cons, List.not_mem_nil, false_implies, implies_true, and_true, true_and, decide_eq_true_eq]
  exact ⟨fun h => h.1, fun h => ⟨h, h.symm⟩⟩

theorem Shared.commonTail_le_pair (h : Shared seen s) (b : Vector UInt8 L) :
    commonTail L ((seen ++ [b]).map octet) ≤ commonTail L [octet s.buflast, octet b] := by
  rw [List.map_append]
  exact commonTail_concat_le_pair (List.mem_map_of_mem (List.mem_of_getLast? h.last))

/-- The tail that is found for one address more: that of the pair, but not more than an octet beyond the one before, nor into the head. -/
theorem Shared.taillen_eq (hL : 0 < L) (b : Vector UInt8 L) (hlt : (headTailStep s b).headlen < L) :
    (headTailStep s b).taillen =
      min (min (s.taillen + 1) (L - 1 - (headTailStep s b).headlen)) (commonTail L [octet s.buflast, octet b]) := by
  rw [commonTail_pair]
  exact (isLeading_leading _ L).eq_min (taillen_step hL hlt) ((min_le_right _ _).trans (by omega))

/-- **One address more.** -/
theorem Shared.step (hL : 0 < L) (h : Shared seen s) (b : Vector UInt8 L) : Shared (seen ++ [b]) (headTailStep s b) := by
  have hhead := h.headlen_step b
  refine ⟨by rw [List.getLast?_concat]; rfl, hhead, fun hwhole => ?_, fun hlt => ?_⟩
  · -- then no address was different before
    have hle : (headTailStep s b).headlen ≤ s.headlen := by
      have hleading := (isLeading_leading (fun j => decide (octet s.buflast (0 + j) = octet b (0 + j))) s.headlen).le
      show headLoop s.buflast b s.headlen 0 ≤ s.headlen
      rwa [headLoop_eq, Nat.zero_add]
    have hcommonHead : s.headlen ≤ L := h.headlen ▸ (isLeading_leading _ L).le
    have hnone : ¬ L - headLoop s.buflast b s.headlen 0 > 0 := by
      have : headLoop s.buflast b s.headlen 0 = L := hwhole
      omega
    show (if _ then _ else _) = L
    rw [if_neg hnone]
    exact h.whole (by omega)
  · have hends := commonHead_add_commonTail_lt (hhead ▸ hlt)
    have hpair := h.commonTail_le_pair b
    have hold := h.commonTail_le b
    rw [Shared.taillen_eq hL b hlt]
    omega

/-- **When the tail that is found is not too long.** -/
theorem Shared.taillen_le_iff (hL : 0 < L) (h : Shared seen s) (b : Vector UInt8 L) (hlt : (headTailStep s b).headlen < L) :
    (headTailStep s b).taillen ≤ commonTail L ((seen ++ [b]).map octet) ↔
      commonTail L [octet s.buflast, octet b] = commonTail L ((seen ++ [b]).map octet) ∨
        commonHead L ((seen ++ [b]).map octet) + commonTail L ((seen ++ [b]).map octet) + 1 = L := by
  have hhead := h.headlen_step b
  have hends := commonHead_add_commonTail_lt (hhead ▸ hlt)
  have hpair := h.commonTail_le_pair b
  have hold := h.commonTail_le b
  rw [Shared.taillen_eq hL b hlt]
  omega

theorem shared_first (a : Vector UInt8 L) : Shared [a] (⟨L, L, a, a⟩ : HeadTail L) where
  last := rfl
  headlen := by
    refine IsLeading.unique (p := agree [octet a]) (n := L) ⟨le_rfl, fun i _ => ?_, fun h => absurd h (lt_irrefl L)⟩ (isLeading_leading _ L)
    exact agree_iff.mpr fun v hv w hw => by rw [List.mem_singleton.mp hv, List.mem_singleton.mp hw]
  whole := fun _ => rfl
  le_taillen := fun h => absurd h (lt_irrefl L)

theorem Shared.foldl (hL : 0 < L) (h : Shared seen s) (l : List (Vector UInt8 L)) : Shared (seen ++ l) (l.foldl headTailStep s) := by
  induction l generalizing seen s with
  | nil => rwa [List.append_nil]
  | cons b l ih =>
    rw [List.append_cons, List.foldl_cons]
    exact ih (h.step hL b)

theorem getHeadTail_eq (hL : 0 < L) (block : PbbAddressBlock L) {rest : List (Vector UInt8 L)} (haddr : block.addressList = a :: rest) :
    block.getHeadTail = rest.foldl headTailStep ⟨L, L, a, a⟩ := by
  have hhead : headLoop a a L 0 = L := by
    rw [headLoop_eq, Nat.zero_add]
    exact (isLeading_leading _ L).unique ⟨le_rfl, fun i _ => decide_eq_true rfl, fun h => absurd h (lt_irrefl L)⟩
  rw [getHeadTail, haddr, headTailLoop_eq hL, List.headD_cons, List.foldl_cons, headTailStep]
  dsimp only
  rw [hhead, if_neg (by omega)]

/-- **The ends that are found**, for two addresses or more: the head is right, and the tail is if the last two addresses have no longer one,
or no octet is left between the ends but one. -/
theorem getHeadTail_spec (hL : 0 < L) (block : PbbAddressBlock L) (haddr : block.addressList = pre ++ [a, b]) :
    block.getHeadTail.bufcur = a ∧ block.getHeadTail.headlen = commonHead L (block.addressList.map octet) ∧
      (block.getHeadTail.headlen = L → block.getHeadTail.taillen = L) ∧
      (block.getHeadTail.headlen < L → block.getHeadTail.headlen + block.getHeadTail.taillen < L ∧
        (block.getHeadTail.taillen ≤ commonTail L (block.addressList.map octet) ↔
          commonTail L [octet a, octet b] = commonTail L (block.addressList.map octet) ∨
            commonHead L (block.addressList.map octet) + commonTail L (block.addressList.map octet) + 1 = L)) := by
  obtain ⟨first, rest, hfirst⟩ : ∃ first rest, pre ++ [a] = first :: rest := by
    cases pre with
    | nil => exact ⟨a, [], rfl⟩
    | cons first pre => exact ⟨first, pre ++ [a], rfl⟩
  have hall : block.addressList = first :: (rest ++ [b]) := by
    rw [haddr, ← List.cons_append, ← hfirst, List.append_assoc]
    rfl
  have hshared := (shared_first first).foldl hL rest
  have hseen : [first] ++ rest = pre ++ [a] := hfirst.symm
  rw [hseen] at hshared
  have hlast : (rest.foldl headTailStep ⟨L, L, first, first⟩).buflast = a :=
    Option.some_inj.mp (hshared.last.symm.trans List.getLast?_concat)
  have hseen' : block.addressList = (pre ++ [a]) ++ [b] := by rw [haddr, List.append_assoc]; rfl
  rw [getHeadTail_eq hL block hall, List.foldl_append, List.foldl_cons, List.foldl_nil, hseen']
  generalize rest.foldl headTailStep ⟨L, L, first, first⟩ = s at hshared hlast
  have hiff := hshared.taillen_le_iff hL b
  rw [hlast] at hiff
  refine ⟨hlast, hshared.headlen_step b, (hshared.step hL b).whole, fun hlt => ⟨?_, hiff hlt⟩⟩
  have heq := Shared.taillen_eq (s := s) hL b hlt
  omega

end Ends

/-! ## What is read -/

section Reading

variable {L : ℕ} {buf addrtmp : Vector UInt8 L} {headlen taillen : ℕ}

theorem getElem_memcpy_slice (addrtmp buf : Vector UInt8 L) {offset n i : ℕ} (hn : offset + n ≤ L) (hi : i < L) :
    (memcpy addrtmp offset (slice buf offset n))[i] = if offset ≤ i ∧ i < offset + n then buf[i] else addrtmp[i] := by
  rw [getElem_memcpy _ _ _ hi]
  by_cases hle : offset ≤ i
  · rw [if_pos hle, List.getD_eq_getElem?_getD]
    by_cases hlt : i < offset + n
    · have hplace : offset + (i - offset) = i := Nat.add_sub_cancel' hle
      rw [if_pos ⟨hle, hlt⟩, getElem?_slice buf (by omega) (by omega)]
      simp only [hplace, Option.getD_some]
    · have hlen : (slice buf offset n).length ≤ i - offset := by
        rw [length_slice buf hn]
        omega
      rw [if_neg fun h => hlt h.2, List.getElem?_eq_none hlen, Option.getD_none]
  · rw [if_neg hle, if_neg fun h => hle h.1]

theorem readInto_slice (addrtmp buf : Vector UInt8 L) {offset n : ℕ} (hn : offset + n ≤ L) (rest : List UInt8) :
    readInto addrtmp offset n (slice buf offset n ++ rest) = some (memcpy addrtmp offset (slice buf offset n), rest) := by
  rw [readInto, if_pos hn, takeBytes_append (length_slice buf hn), Option.map_some]

structure IsFlags (flags : UInt8) (buf : Vector UInt8 L) (headlen taillen prefixes : ℕ) : Prop where
  head : flags &&& AHAS_HEAD ≠ 0 ↔ headlen > 0
  tail : (flags &&& AHAS_FULL_TAIL) ^^^ (flags &&& AHAS_ZERO_TAIL) ≠ 0 ↔ taillen > 0
  fullTail : flags &&& AHAS_FULL_TAIL ≠ 0 ↔ taillen > 0 ∧ ¬ hasZeroTail (slice buf (L - taillen) taillen) = true
  single : flags &&& AHAS_SINGLE_PRE_LEN ≠ 0 ↔ prefixes = 1
  multi : flags &&& AHAS_MULTI_PRE_LEN ≠ 0 ↔ 2 ≤ prefixes

theorem flags_table : ∀ head tail zero : Bool, ∀ prefixFlags ∈ [0, AHAS_SINGLE_PRE_LEN, AHAS_MULTI_PRE_LEN],
    let flags := ((if head then AHAS_HEAD else 0) ||| if tail then if zero then AHAS_ZERO_TAIL else AHAS_FULL_TAIL else 0) ||| prefixFlags
    (flags &&& AHAS_HEAD ≠ 0 ↔ head) ∧ ((flags &&& AHAS_FULL_TAIL) ^^^ (flags &&& AHAS_ZERO_TAIL) ≠ 0 ↔ tail) ∧
      (flags &&& AHAS_FULL_TAIL ≠ 0 ↔ tail ∧ ¬ zero) ∧ (flags &&& AHAS_SINGLE_PRE_LEN ≠ 0 ↔ prefixFlags = AHAS_SINGLE_PRE_LEN) ∧
        (flags &&& AHAS_MULTI_PRE_LEN ≠ 0 ↔ prefixFlags = AHAS_MULTI_PRE_LEN) := by
  decide +kernel

theorem getPrefixFlags_spec (block : PbbAddressBlock L) :
    block.getPrefixFlags ∈ [0, AHAS_SINGLE_PRE_LEN, AHAS_MULTI_PRE_LEN] ∧
      (block.getPrefixFlags = AHAS_SINGLE_PRE_LEN ↔ block.prefixList.length = 1) ∧
      (block.getPrefixFlags = AHAS_MULTI_PRE_LEN ↔ 2 ≤ block.prefixList.length) := by
  unfold getPrefixFlags
  rcases block.prefixList.length with _ | _ | n
  · decide
  · decide
  · show AHAS_MULTI_PRE_LEN ∈ _ ∧ (AHAS_MULTI_PRE_LEN = _ ↔ _) ∧ _
    exact ⟨by decide, iff_of_false (by decide) (by omega), iff_of_true rfl (by omega)⟩

theorem isFlags_endFlags (buf : Vector UInt8 L) (headlen taillen : ℕ) (block : PbbAddressBlock L) :
    IsFlags (endFlags buf headlen taillen ||| block.getPrefixFlags) buf headlen taillen block.prefixList.length := by
  obtain ⟨hmem, hsingle, hmulti⟩ := block.getPrefixFlags_spec
  have htable := flags_table (decide (headlen > 0)) (decide (taillen > 0)) (hasZeroTail (slice buf (L - taillen) taillen)) _ hmem
  simp only [decide_eq_true_eq, hsingle, hmulti] at htable
  obtain ⟨h1, h2, h3, h4, h5⟩ := htable
  exact ⟨h1, h2, h3, h4, h5⟩

theorem endFlags_zero (buf : Vector UInt8 L) : endFlags buf 0 0 = 0 := by
  rw [endFlags, if_neg (lt_irrefl 0), if_neg (lt_irrefl 0)]
  rfl

theorem serializeEnds_zero (buf : Vector UInt8 L) : serializeEnds buf 0 0 = [] := by
  rw [serializeEnds, if_neg (lt_irrefl 0), if_neg (lt_irrefl 0), List.append_nil]

variable {flags : UInt8} {prefixes : ℕ}

theorem deserializeHead_serialize (hflags : IsFlags flags buf headlen taillen prefixes) (hle : headlen ≤ L) (hbyte : L < 256)
    (rest : List UInt8) :
    deserializeHead flags ((if headlen > 0 then .ofNat headlen :: slice buf 0 headlen else []) ++ rest) =
      some (headlen, memcpy (.replicate L 0) 0 (slice buf 0 headlen), rest) := by
  have hplace : 0 + headlen ≤ L := by rwa [Nat.zero_add]
  unfold deserializeHead
  by_cases hpos : headlen > 0
  · have hread : readU8 (UInt8.ofNat headlen :: (slice buf 0 headlen ++ rest)) = some (.ofNat headlen, slice buf 0 headlen ++ rest) := rfl
    rw [if_pos (hflags.head.mpr hpos), if_pos hpos, List.cons_append, hread, Option.bind_some]
    dsimp only
    rw [UInt8.toNat_ofNat_of_lt' (by omega : headlen < 2 ^ 8), readInto_slice _ buf hplace, Option.map_some]
  · have hzero : headlen = 0 := by omega
    subst hzero
    rw [if_neg (fun h => hpos (hflags.head.mp h)), if_neg hpos]
    congr 3
    ext i hi
    rw [getElem_memcpy_slice _ buf hplace hi, if_neg (by omega)]

theorem getElem_of_hasZeroTail {tail : List UInt8} (h : hasZeroTail tail = true) {i : ℕ} {b : UInt8} (hi : tail[i]? = some b) : b = 0 :=
  eq_of_beq (List.all_eq_true.mp h b (List.mem_of_getElem? hi))

/-- The tail is read, or there are only zeros in it and there are zeros already. -/
theorem deserializeTail_serialize (hflags : IsFlags flags buf headlen taillen prefixes) (hle : taillen ≤ L) (hbyte : L < 256)
    (haddr : ∀ i (hi : i < L), addrtmp[i] = buf[i] ∨ addrtmp[i] = 0) (rest : List UInt8) :
    ∃ addrtmp' : Vector UInt8 L,
      deserializeTail flags addrtmp ((if taillen > 0 then .ofNat taillen ::
        if hasZeroTail (slice buf (L - taillen) taillen) then [] else slice buf (L - taillen) taillen else []) ++ rest) =
        some (taillen, addrtmp', rest) ∧
      ∀ i (hi : i < L), addrtmp'[i] = if L - taillen ≤ i then buf[i] else addrtmp[i] := by
  have hplace : L - taillen + taillen ≤ L := by omega
  unfold deserializeTail
  by_cases hpos : taillen > 0
  · have hbyte' : (UInt8.ofNat taillen).toNat = taillen := UInt8.toNat_ofNat_of_lt' (by omega : taillen < 2 ^ 8)
    rw [if_pos (hflags.tail.mpr hpos), if_pos hpos, List.cons_append]
    show ∃ _, Option.bind (some (UInt8.ofNat taillen, _)) _ = _ ∧ _
    rw [Option.bind_some]
    dsimp only
    rw [hbyte']
    by_cases hzero : hasZeroTail (slice buf (L - taillen) taillen) = true
    · rw [if_neg (fun h => (hflags.fullTail.mp h).2 hzero), if_pos hzero]
      refine ⟨addrtmp, rfl, fun i hi => ?_⟩
      split_ifs with htaili
      · have hbuf : buf[i] = 0 := getElem_of_hasZeroTail (i := i - (L - taillen)) hzero <| by
          rw [getElem?_slice buf (by omega) (by omega)]
          simp only [Nat.add_sub_cancel' htaili]
        rcases haddr i hi with h | h
        · exact h
        · rw [h, hbuf]
      · rfl
    · rw [if_pos (hflags.fullTail.mpr ⟨hpos, hzero⟩), if_neg hzero, if_pos hle, readInto_slice _ buf hplace]
      refine ⟨_, rfl, fun i hi => ?_⟩
      rw [getElem_memcpy_slice _ buf hplace hi]
      simp only [show i < L - taillen + taillen by omega, and_true]
  · rw [if_neg (fun h => hpos (hflags.tail.mp h)), if_neg hpos]
    have hzero : taillen = 0 := by omega
    subst hzero
    exact ⟨addrtmp, rfl, fun i hi => by rw [if_neg (by omega)]⟩

/-- **The ends are read.** -/
theorem deserializeEnds (hflags : IsFlags flags buf headlen taillen prefixes) (hheadlen : headlen ≤ L) (htaillen : taillen ≤ L)
    (hbyte : L < 256) (rest : List UInt8) :
    ∃ r : Vector UInt8 L × List UInt8, ∃ addrtmp : Vector UInt8 L,
      deserializeHead flags (serializeEnds buf headlen taillen ++ rest) = some (headlen, r) ∧
        deserializeTail flags r.1 r.2 = some (taillen, addrtmp, rest) ∧
        ∀ i (hi : i < L), i < headlen ∨ L - taillen ≤ i → addrtmp[i] = buf[i] := by
  have hread (i : ℕ) (hi : i < L) := getElem_memcpy_slice (.replicate L 0) buf (show 0 + headlen ≤ L by omega) hi
  have haddr : ∀ i (hi : i < L), (memcpy (.replicate L 0) 0 (slice buf 0 headlen))[i] = buf[i] ∨
      (memcpy (.replicate L 0) 0 (slice buf 0 headlen))[i] = 0 := fun i hi => by
    rw [hread i hi]
    split_ifs
    · exact .inl rfl
    · exact .inr (Vector.getElem_replicate hi)
  obtain ⟨addrtmp, heq, haddrtmp⟩ := deserializeTail_serialize hflags htaillen hbyte haddr rest
  refine ⟨_, addrtmp, by rw [serializeEnds, List.append_assoc, deserializeHead_serialize hflags hheadlen hbyte], heq, fun i hi hend => ?_⟩
  rw [haddrtmp i hi]
  split_ifs with htaili
  · rfl
  · rw [hread i hi, if_pos ⟨Nat.zero_le i, by omega⟩]

def withEnds (buf : Vector UInt8 L) (headlen taillen : ℕ) (mid : Vector UInt8 L) : Vector UInt8 L :=
  memcpy buf headlen (slice mid headlen (L - headlen - taillen))

theorem getElem_withEnds (hle : headlen + taillen ≤ L) (mid : Vector UInt8 L) {i : ℕ} (hi : i < L) :
    (withEnds buf headlen taillen mid)[i] = if headlen ≤ i ∧ i < L - taillen then mid[i] else buf[i] := by
  rw [withEnds, getElem_memcpy_slice _ mid (by omega) hi]
  simp only [show headlen + (L - headlen - taillen) = L - taillen by omega]

/-- **The addresses are read** between the ends that the buffer has. -/
theorem addressLoop_spec (hle : headlen + taillen ≤ L) (hends : ∀ i (hi : i < L), i < headlen ∨ L - taillen ≤ i → addrtmp[i] = buf[i])
    (mids : List (Vector UInt8 L)) (rest : List UInt8) :
    addressLoop headlen taillen mids.length addrtmp ((mids.flatMap fun mid => slice mid headlen (L - headlen - taillen)) ++ rest) =
      some (mids.map (withEnds buf headlen taillen), rest) := by
  induction mids generalizing addrtmp with
  | nil => rfl
  | cons mid mids ih =>
    have hmid : memcpy addrtmp headlen (slice mid headlen (L - headlen - taillen)) = withEnds buf headlen taillen mid := by
      ext i hi
      rw [getElem_withEnds hle mid hi, getElem_memcpy_slice _ mid (by omega) hi]
      by_cases hplace : headlen ≤ i ∧ i < L - taillen
      · rw [if_pos hplace, if_pos (by omega)]
      · rw [if_neg hplace, if_neg (by omega), hends i hi (by omega)]
    rw [List.length_cons, List.flatMap_cons, List.append_assoc, addressLoop, if_pos hle, readInto_slice addrtmp mid (by omega),
      Option.bind_some]
    dsimp only
    rw [hmid, ih fun i hi hend => by rw [getElem_withEnds hle mid hi, if_neg (by omega)], Option.map_some, List.map_cons]

theorem map_withEnds_eq_iff (hle : headlen + taillen ≤ L) (mids : List (Vector UInt8 L)) :
    mids.map (withEnds buf headlen taillen) = mids ↔
      ∀ mid ∈ mids, ∀ i (hi : i < L), i < headlen ∨ L - taillen ≤ i → mid[i] = buf[i] := by
  have hid : mids.map (withEnds buf headlen taillen) = mids ↔ ∀ mid ∈ mids, withEnds buf headlen taillen mid = mid := by
    conv_lhs => rhs; rw [← List.map_id mids]
    exact List.map_inj_left
  rw [hid]
  refine forall₂_congr fun mid _ => ⟨fun h i hi hend => ?_, fun h => ?_⟩
  · rw [← h, getElem_withEnds hle mid hi, if_neg (by omega)]
  · apply Vector.ext
    intro i hi
    rw [getElem_withEnds hle mid hi]
    split_ifs with hplace
    · rfl
    · exact (h i hi (by omega)).symm

theorem deserializePrefixes_serialize {prefixList : List UInt8} (hflags : IsFlags flags buf headlen taillen prefixList.length) {numaddr : ℕ}
    (hprefixes : prefixList.length = 0 ∨ prefixList.length = 1 ∨ prefixList.length = numaddr) (rest : List UInt8) :
    deserializePrefixes flags numaddr (prefixList ++ rest) = some (prefixList, rest) := by
  unfold deserializePrefixes
  split_ifs with h1 h2
  · obtain ⟨prefixLen, heq⟩ := List.length_eq_one_iff.mp (hflags.single.mp h1)
    rw [heq]
    rfl
  · have hlen := hflags.multi.mp h2
    exact takeBytes_append (by omega) rest
  · have hone : prefixList.length ≠ 1 := fun h => h1 (hflags.single.mpr h)
    have htwo : ¬ 2 ≤ prefixList.length := fun h => h2 (hflags.multi.mpr h)
    rw [List.eq_nil_of_length_eq_zero (show prefixList.length = 0 by omega)]
    rfl

end Reading

/-! ## The blocks that come back -/

section RoundTrip

variable {L : ℕ} {block : PbbAddressBlock L} {pre : List (Vector UInt8 L)} {a b : Vector UInt8 L}

/-- **A block comes back**: as many octets as `GetSerializedSize` says are written, and they are read to their end and give the addresses and
the prefixes. -/
def RoundTrips (block : PbbAddressBlock L) : Prop :=
  ∀ raw, ((block.serialize raw).length : ℤ) = block.getSerializedSize ∧
    ∀ rest, ∃ block' : PbbAddressBlock L, deserialize (block.serialize raw ++ rest) = some (block', rest) ∧
      block'.addressList = block.addressList ∧ block'.prefixList = block.prefixList

/-- The addresses of a block of two or more are not all equal, and the last two have no longer tail than all of them, or the ends leave out
one octet of each address. -/
def EndsFit (block : PbbAddressBlock L) : Prop :=
  ∀ pre a b, block.addressList = pre ++ [a, b] → (∃ v ∈ block.addressList, ∃ w ∈ block.addressList, v ≠ w) ∧
    (commonTail L [octet a, octet b] = commonTail L (block.addressList.map octet) ∨
      commonHead L (block.addressList.map octet) + commonTail L (block.addressList.map octet) + 1 = L)

def readAddresses (numaddr flags : UInt8) (bytes : List UInt8) : Option ((List (Vector UInt8 L) × List UInt8) × List UInt8) :=
  if numaddr.toNat > 0 then
    (deserializeHead flags bytes).bind fun head => (deserializeTail flags head.2.1 head.2.2).bind fun tail =>
      (addressLoop head.1 tail.1 numaddr.toNat tail.2.1 tail.2.2).bind fun addresses =>
        (deserializePrefixes flags numaddr.toNat addresses.2).map fun prefixes => ((addresses.1, prefixes.1), prefixes.2)
  else some (([], []), bytes)

theorem deserialize_cons (numaddr flags : UInt8) (bytes : List UInt8) :
    (deserialize (numaddr :: flags :: bytes) : Option (PbbAddressBlock L × List UInt8)) =
      (readAddresses numaddr flags bytes).bind fun r =>
        (PbbAddressTlvBlock.deserialize r.2).map fun tlvs => (⟨r.1.1, r.1.2, tlvs.1⟩, tlvs.2) := rfl

theorem roundTrips_iff_of_read (addresses : List (Vector UInt8 L)) (prefixes : List UInt8) (numaddr : UInt8)
    (h : ∀ raw, ∃ flags body, block.serialize raw = numaddr :: flags :: (body ++ PbbAddressTlvBlock.serialize block.addressTlvList) ∧
      (body.length + 2 + PbbAddressTlvBlock.getSerializedSize block.addressTlvList : ℤ) = block.getSerializedSize ∧
      ∀ rest, readAddresses numaddr flags (body ++ rest) = some ((addresses, prefixes), rest)) :
    RoundTrips block ↔
      (addresses = block.addressList ∧ prefixes = block.prefixList) ∧ PbbAddressTlvBlock.ReadsBack block.addressTlvList := by
  have hlength (raw : UInt8) : ((block.serialize raw).length : ℤ) = block.getSerializedSize ↔
      (PbbAddressTlvBlock.serialize block.addressTlvList).length = PbbAddressTlvBlock.getSerializedSize block.addressTlvList := by
    obtain ⟨flags, body, hser, hsize, -⟩ := h raw
    rw [hser, ← hsize, List.length_cons, List.length_cons, List.length_append]
    omega
  have hread (raw : UInt8) (rest : List UInt8) : deserialize (block.serialize raw ++ rest) =
      (PbbAddressTlvBlock.deserialize (PbbAddressTlvBlock.serialize block.addressTlvList ++ rest)).map
        fun tlvs => (⟨addresses, prefixes, tlvs.1⟩, tlvs.2) := by
    obtain ⟨flags, body, hser, -, hbody⟩ := h raw
    rw [hser, List.cons_append, List.cons_append, List.append_assoc, deserialize_cons, hbody, Option.bind_some]
  constructor
  · intro hround
    obtain ⟨hsize, hall⟩ := hround 0
    obtain ⟨block', heq, haddr, hprefixes⟩ := hall []
    rw [hread, Option.map_eq_some_iff] at heq
    obtain ⟨tlvs, -, hblock⟩ := heq
    rw [Prod.mk.injEq] at hblock
    rw [← hblock.1] at haddr hprefixes
    refine ⟨⟨haddr, hprefixes⟩, (hlength 0).mp hsize, fun rest => ?_⟩
    obtain ⟨block'', heq, -⟩ := hall rest
    rw [hread, Option.map_eq_some_iff] at heq
    obtain ⟨tlvs', htlvs, hrest⟩ := heq
    rw [Prod.mk.injEq] at hrest
    exact ⟨tlvs'.1, by rw [htlvs, ← hrest.2]⟩
  · rintro ⟨⟨haddr, hprefixes⟩, hsize, htlvs⟩ raw
    refine ⟨(hlength raw).mpr hsize, fun rest => ?_⟩
    obtain ⟨tlvs', htlvs'⟩ := htlvs rest
    exact ⟨⟨addresses, prefixes, tlvs'⟩, by rw [hread, htlvs', Option.map_some], haddr, hprefixes⟩

theorem roundTrips_nil_iff (hnil : block.addressList = []) :
    RoundTrips block ↔ block.prefixList = [] ∧ PbbAddressTlvBlock.ReadsBack block.addressTlvList := by
  rw [roundTrips_iff_of_read [] [] 0]
  · rw [hnil]
    exact and_congr_left' ⟨fun h => h.2.symm, fun h => ⟨rfl, h.symm⟩⟩
  · intro raw
    refine ⟨raw, [], by rw [serialize, hnil]; rfl, ?_, fun rest => rfl⟩
    rw [getSerializedSize, hnil]
    simp

/-- **What is read** after the flags. -/
theorem readAddresses_serialize {flags numaddr : UInt8} {buf : Vector UInt8 L} {headlen taillen : ℕ}
    (hflags : IsFlags flags buf headlen taillen block.prefixList.length) (hle : headlen + taillen ≤ L) (hbyte : L < 256)
    (hnum : numaddr.toNat = block.addressList.length) (hpos : 0 < block.addressList.length)
    (hprefixes : block.prefixList.length = 0 ∨ block.prefixList.length = 1 ∨ block.prefixList.length = block.addressList.length)
    (rest : List UInt8) :
    readAddresses numaddr flags (serializeEnds buf headlen taillen ++
      (block.addressList.flatMap fun mid => slice mid headlen (L - headlen - taillen)) ++ block.prefixList ++ rest) =
      some ((block.addressList.map (withEnds buf headlen taillen), block.prefixList), rest) := by
  rw [List.append_assoc, List.append_assoc]
  obtain ⟨r, addrtmp, hhead, htail, hends⟩ := deserializeEnds hflags (by omega) (by omega) hbyte
    ((block.addressList.flatMap fun mid => slice mid headlen (L - headlen - taillen)) ++ (block.prefixList ++ rest))
  rw [readAddresses, hnum, if_pos hpos, hhead, Option.bind_some, htail, Option.bind_some, addressLoop_spec hle hends, Option.bind_some,
    deserializePrefixes_serialize hflags hprefixes, Option.map_some]

theorem roundTrips_singleton_iff (hone : block.addressList = [a]) (hbyte : L < 256)
    (hprefixes : block.prefixList.length = 0 ∨ block.prefixList.length = 1) :
    RoundTrips block ↔ PbbAddressTlvBlock.ReadsBack block.addressTlvList := by
  have hlength : block.addressList.length = 1 := by rw [hone]; rfl
  have hslice : slice a 0 (L - 0 - 0) = a.toList := by
    rw [slice, List.drop_zero, List.take_of_length_le (by rw [Vector.length_toList]; rfl)]
  rw [roundTrips_iff_of_read (block.addressList.map (withEnds a 0 0)) block.prefixList 1]
  · rw [map_withEnds_eq_iff (by omega)]
    exact and_iff_right ⟨fun mid _ i hi hend => by omega, rfl⟩
  · intro raw
    refine ⟨endFlags a 0 0 ||| block.getPrefixFlags, serializeEnds a 0 0 ++
      (block.addressList.flatMap fun mid => slice mid 0 (L - 0 - 0)) ++ block.prefixList, ?_, ?_, fun rest => ?_⟩
    · have hser : block.serialize raw = 1 :: ((if block.prefixList.length = 1 then AHAS_SINGLE_PRE_LEN :: a.toList ++
          [block.prefixList.headD 0] else 0 :: a.toList) ++ PbbAddressTlvBlock.serialize block.addressTlvList) := by
        rw [serialize, hone]
        rfl
      rw [hser, hone, List.flatMap_singleton, hslice, endFlags_zero, serializeEnds_zero, UInt8.zero_or, getPrefixFlags, List.nil_append]
      rcases hprefixes with hzero | hsingle
      · rw [List.eq_nil_of_length_eq_zero hzero, List.append_nil]
        rfl
      · obtain ⟨prefixLen, heq⟩ := List.length_eq_one_iff.mp hsingle
        rw [heq]
        rfl
    · rw [getSerializedSize, if_pos hlength, hone, List.flatMap_singleton, hslice, List.length_append, List.length_append,
        Vector.length_toList, serializeEnds_zero, List.length_nil]
      push_cast
      ring
    · exact readAddresses_serialize (isFlags_endFlags a 0 0 block) (Nat.zero_le L) hbyte (by rw [hlength]; rfl) (by omega) (by omega) rest

theorem serialize_of_two (haddr : block.addressList = pre ++ [a, b]) (raw : UInt8) :
    block.serialize raw = .ofNat block.addressList.length ::
      (endFlags block.getHeadTail.bufcur block.getHeadTail.headlen block.getHeadTail.taillen ||| block.getPrefixFlags) ::
        (serializeEnds block.getHeadTail.bufcur block.getHeadTail.headlen block.getHeadTail.taillen ++
          (if block.getHeadTail.headlen + block.getHeadTail.taillen < L then
            block.addressList.flatMap fun mid => slice mid block.getHeadTail.headlen (L - block.getHeadTail.headlen - block.getHeadTail.taillen)
          else []) ++ block.prefixList ++ PbbAddressTlvBlock.serialize block.addressTlvList) := by
  rw [serialize]
  split
  · exact absurd (haddr.symm.trans ‹_›) (by simp)
  · exact absurd (congrArg List.length (haddr.symm.trans ‹_›)) (by simp)
  · rfl

theorem length_serializeEnds (buf : Vector UInt8 L) {headlen taillen : ℕ} (hle : headlen + taillen ≤ L) :
    (serializeEnds buf headlen taillen).length = (if headlen > 0 then 1 + headlen else 0) +
      if taillen > 0 then 1 + if hasZeroTail (slice buf (L - taillen) taillen) then 0 else taillen else 0 := by
  have hhead := length_slice buf (show 0 + headlen ≤ L by omega)
  have htail := length_slice buf (show L - taillen + taillen ≤ L by omega)
  rw [serializeEnds, List.length_append]
  split_ifs <;> simp only [List.length_cons, List.length_nil, hhead, htail] <;> omega

theorem length_flatMap_slice {headlen taillen : ℕ} (hle : headlen + taillen ≤ L) (mids : List (Vector UInt8 L)) :
    (mids.flatMap fun mid => slice mid headlen (L - headlen - taillen)).length = mids.length * (L - headlen - taillen) := by
  rw [List.length_flatMap]
  simp only [length_slice _ (show headlen + (L - headlen - taillen) ≤ L by omega), List.map_const', List.sum_replicate, smul_eq_mul]

theorem getSerializedSize_of_two (htwo : 2 ≤ block.addressList.length) {buf : Vector UInt8 L} {headlen taillen : ℕ}
    (hbuf : block.getHeadTail.bufcur = buf) (hhead : block.getHeadTail.headlen = headlen) (htail : block.getHeadTail.taillen = taillen)
    (hle : headlen + taillen ≤ L) :
    block.getSerializedSize = ((serializeEnds buf headlen taillen ++
      (block.addressList.flatMap fun mid => slice mid headlen (L - headlen - taillen)) ++ block.prefixList).length + 2 +
        PbbAddressTlvBlock.getSerializedSize block.addressTlvList : ℤ) := by
  have hmids : ((L - headlen - taillen : ℕ) : ℤ) = L - headlen - taillen := by omega
  rw [getSerializedSize, if_neg (by omega), if_pos (by omega), List.length_append, List.length_append, length_serializeEnds buf hle,
    length_flatMap_slice hle]
  dsimp only
  rw [hbuf, hhead, htail]
  push_cast [hmids]
  ring

theorem octet_eq_iff {v w : Vector UInt8 L} {i : ℕ} (hi : i < L) : octet v i = octet w i ↔ v[i] = w[i] := by
  rw [octet, octet, Vector.getElem?_eq_getElem hi, Vector.getElem?_eq_getElem hi, Option.some_inj]

theorem agree_octet_iff {ws : List (Vector UInt8 L)} {i : ℕ} (hi : i < L) :
    agree (ws.map octet) i = true ↔ ∀ v ∈ ws, ∀ w ∈ ws, v[i] = w[i] := by
  simp only [agree_iff, List.forall_mem_map, octet_eq_iff hi]

theorem commonHead_octet_lt_iff (ws : List (Vector UInt8 L)) : commonHead L (ws.map octet) < L ↔ ∃ v ∈ ws, ∃ w ∈ ws, v ≠ w := by
  rw [commonHead_lt_iff]
  constructor
  · rintro ⟨i, hi, hdiff⟩
    by_contra hall
    push Not at hall
    have hagree := (agree_octet_iff hi).mpr fun v hv w hw => by rw [hall v hv w hw]
    exact Bool.false_ne_true (hdiff.symm.trans hagree)
  · rintro ⟨v, hv, w, hw, hne⟩
    by_contra hall
    push Not at hall
    refine hne (Vector.ext fun i hi => ?_)
    exact (agree_octet_iff hi).mp (Bool.not_eq_false _ ▸ hall i hi) v hv w hw

theorem ends_eq_iff {ws : List (Vector UInt8 L)} (ha : a ∈ ws) {headlen taillen : ℕ} (hhead : headlen = commonHead L (ws.map octet))
    (hle : taillen ≤ L) :
    (∀ mid ∈ ws, ∀ i (hi : i < L), i < headlen ∨ L - taillen ≤ i → mid[i] = a[i]) ↔ taillen ≤ commonTail L (ws.map octet) := by
  rw [le_commonTail_iff hle]
  constructor
  · intro h i hplace hi
    exact (agree_octet_iff hi).mpr fun v hv w hw => (h v hv i hi (.inr hplace)).trans (h w hw i hi (.inr hplace)).symm
  · rintro h mid hmid i hi (hlt | hplace)
    · exact (agree_octet_iff hi).mp (agree_of_lt_commonHead (hhead ▸ hlt)) mid hmid a ha
    · exact (agree_octet_iff hi).mp (h i hplace hi) mid hmid a ha

/-- **Two addresses or more.** -/
theorem roundTrips_of_two_iff (haddr : block.addressList = pre ++ [a, b]) (hL : 0 < L) (hbyte : L < 256)
    (hcount : block.addressList.length ≤ 255)
    (hprefixes : block.prefixList.length = 0 ∨ block.prefixList.length = 1 ∨ block.prefixList.length = block.addressList.length) :
    RoundTrips block ↔ block.EndsFit ∧ PbbAddressTlvBlock.ReadsBack block.addressTlvList := by
  obtain ⟨hbuf, hhead, hwhole, hfit⟩ := getHeadTail_spec hL block haddr
  have hcount' : (UInt8.ofNat block.addressList.length).toNat = block.addressList.length :=
    UInt8.toNat_ofNat_of_lt' (show _ < 2 ^ 8 by omega)
  have htwo : 2 ≤ block.addressList.length := by
    rw [haddr, List.length_append]
    exact Nat.le_add_left 2 _
  have hfits : block.EndsFit ↔ commonHead L (block.addressList.map octet) < L ∧
      (commonTail L [octet a, octet b] = commonTail L (block.addressList.map octet) ∨
        commonHead L (block.addressList.map octet) + commonTail L (block.addressList.map octet) + 1 = L) := by
    rw [commonHead_octet_lt_iff]
    refine ⟨fun h => h pre a b haddr, fun h pre' a' b' haddr' => ?_⟩
    obtain ⟨-, hpair⟩ := List.append_inj' (haddr.symm.trans haddr') rfl
    obtain ⟨rfl, rfl⟩ : a = a' ∧ b = b' := by simpa using hpair
    exact h
  have hser := serialize_of_two haddr
  have hsize (hle) := getSerializedSize_of_two htwo hbuf rfl rfl hle
  have hmem : a ∈ block.addressList := by rw [haddr]; simp
  have hflags := isFlags_endFlags block.getHeadTail.bufcur block.getHeadTail.headlen block.getHeadTail.taillen block
  have hheadle : block.getHeadTail.headlen ≤ L := hhead ▸ (isLeading_leading _ L).le
  rw [hfits, ← hhead]
  rw [hbuf] at hser hflags
  generalize block.getHeadTail.headlen = headlen at *
  generalize block.getHeadTail.taillen = taillen at *
  rcases hheadle.lt_or_eq with hlt | heq
  · -- the addresses are read between the ends
    obtain ⟨hle, hiff⟩ := hfit hlt
    rw [and_iff_right hlt, hhead, ← hiff, ← ends_eq_iff hmem hhead (by omega), ← map_withEnds_eq_iff hle.le]
    rw [roundTrips_iff_of_read (block.addressList.map (withEnds a headlen taillen)) block.prefixList
      (.ofNat block.addressList.length), and_iff_left rfl]
    intro raw
    refine ⟨_, _, hser raw, ?_, fun rest => ?_⟩
    · rw [if_pos hle]
      exact (hsize hle.le).symm
    · rw [if_pos hle]
      exact readAddresses_serialize hflags hle.le hbyte hcount' (by omega) hprefixes rest
  · -- both ends are the whole address, and there is no buffer of a negative length
    have htail := hwhole heq
    refine iff_of_false (fun hround => ?_) fun h => h.1.1.ne heq
    obtain ⟨block', hread, -⟩ := (hround 0).2 []
    rw [hser, if_neg (by omega), List.cons_append, List.cons_append, deserialize_cons, readAddresses, hcount', if_pos (by omega),
      List.append_nil, List.append_assoc, List.append_assoc] at hread
    obtain ⟨r, addrtmp, hr, htmp, -⟩ := deserializeEnds hflags heq.le htail.le hbyte
      ([] ++ (block.prefixList ++ PbbAddressTlvBlock.serialize block.addressTlvList))
    have hnone (bytes : List UInt8) : addressLoop headlen taillen block.addressList.length addrtmp bytes = none := by
      obtain ⟨n, hn⟩ : ∃ n, block.addressList.length = n + 1 := ⟨block.addressList.length - 1, by omega⟩
      rw [hn, addressLoop, if_neg (by omega)]
    rw [hr, Option.bind_some, htmp, Option.bind_some, hnone] at hread
    rw [Option.bind_none, Option.bind_none] at hread
    exact absurd hread (by simp)

theorem endsFit_of_length_lt (h : block.addressList.length < 2) : block.EndsFit := by
  intro pre a b haddr
  rw [haddr, List.length_append] at h
  exact absurd h (Nat.not_lt.mpr (Nat.le_add_left 2 _))

theorem exists_last_two {l : List (Vector UInt8 L)} (h : 2 ≤ l.length) : ∃ pre a b, l = pre ++ [a, b] := by
  rcases l.eq_nil_or_concat with rfl | ⟨init, b, rfl⟩
  · exact absurd h (Nat.not_succ_le_zero 1)
  · rcases init.eq_nil_or_concat with rfl | ⟨pre, a, rfl⟩
    · exact absurd h (by simp)
    · exact ⟨pre, a, b, by simp⟩

/-- **The blocks that come back**: no addresses come without prefixes, the ends of two addresses or more fit them all, and the TLVs read back. -/
theorem blockRoundTrips_iff (family : PbbAddressFamily) (block : PbbAddressBlock family.getAddressLength)
    (haddr : block.addressList.length ≤ 255)
    (hprefixes : block.prefixList.length = 0 ∨ block.prefixList.length = 1 ∨ block.prefixList.length = block.addressList.length) :
    RoundTrips block ↔ (block.addressList = [] → block.prefixList = []) ∧ block.EndsFit ∧
      PbbAddressTlvBlock.ReadsBack block.addressTlvList := by
  have hlength : 0 < family.getAddressLength ∧ family.getAddressLength < 256 := by
    cases family <;> decide
  rcases Nat.lt_or_ge block.addressList.length 2 with hlt | htwo
  · rw [and_iff_right (endsFit_of_length_lt hlt)]
    rcases h : block.addressList with _ | ⟨a, rest⟩
    · rw [roundTrips_nil_iff h, forall_prop_of_true rfl]
    · rw [h, List.length_cons] at hlt
      have hrest : rest = [] := List.eq_nil_of_length_eq_zero (by omega)
      subst hrest
      rw [roundTrips_singleton_iff h hlength.2 (by rw [h, List.length_singleton] at hprefixes; omega)]
      exact (and_iff_right fun hnil => absurd hnil (List.cons_ne_nil a [])).symm
  · obtain ⟨pre, a, b, hpre⟩ := exists_last_two htwo
    rw [roundTrips_of_two_iff hpre hlength.1 hlength.2 haddr hprefixes]
    exact (and_iff_right fun hnil => absurd htwo (by rw [hnil]; exact Nat.not_succ_le_zero 1)).symm

def equalLastTwo : PbbAddressBlock PbbAddressFamily.ipv4.getAddressLength where
  addressList := [#v[1, 2, 3, 4], #v[5, 6, 7, 4], #v[5, 6, 7, 4]]
  prefixList := []
  addressTlvList := []

theorem blockRoundTrips_iff_equalLastTwo :
    RoundTrips equalLastTwo ↔ (equalLastTwo.addressList = [] → equalLastTwo.prefixList = []) ∧ equalLastTwo.EndsFit ∧
      PbbAddressTlvBlock.ReadsBack equalLastTwo.addressTlvList :=
  blockRoundTrips_iff .ipv4 equalLastTwo (by decide) (.inl rfl)

/-- The tail of the last two addresses is written as that of all. -/
theorem not_roundTrips_equalLastTwo : ¬ ∀ (family : PbbAddressFamily) (block : PbbAddressBlock family.getAddressLength),
    block.addressList.length ≤ 255 →
      (block.prefixList.length = 0 ∨ block.prefixList.length = 1 ∨ block.prefixList.length = block.addressList.length) →
      RoundTrips block := by
  intro h
  obtain ⟨block', hread, haddr, -⟩ := (h .ipv4 equalLastTwo (by decide) (.inl rfl) 0).2 []
  have hwrong : (deserialize (equalLastTwo.serialize 0 ++ []) : Option (PbbAddressBlock PbbAddressFamily.ipv4.getAddressLength × _)) =
      some (⟨[#v[1, 2, 7, 4], #v[5, 6, 7, 4], #v[5, 6, 7, 4]], [], []⟩, []) := by decide
  rw [hwrong, Option.some_inj, Prod.mk.injEq] at hread
  rw [← hread.1] at haddr
  exact absurd haddr (by decide)

end RoundTrip

end PbbAddressBlock

end Ns3Ndn
