import Ns3Ndn.Lib.Pieces
import Ns3Ndn.Lib.Run

/-!
# IPv4 fragments

`internet/model/ipv4-l3-protocol.cc`: the fragments of a datagram are a list sorted by their offsets, and one flag says
whether more fragments are to come. It is the flag of the fragment that was last put at the end of the list.

When the last part of a datagram was cut in two ways, a fragment with more fragments behind it can be put behind one that
ends the datagram. The flag is then set again, and the datagram is not complete although all of it is there.

* `Fragment`: what can arrive of a datagram, `received`: what arrived since the datagram was last complete;
* **`run_entire_iff`**: the answers are right all along a run exactly when the flag is that of a last fragment each time
  that a datagram is covered.
-/

namespace Ns3Ndn.Internet

open PieceLib SliceLib
open Function (update update_self update_of_ne)

/-- The part of a header without options that fragmentation reads and writes. -/
structure Ipv4Header where
  source : UInt32
  destination : UInt32
  identification : UInt16
  protocol : UInt8
  moreFragments : Bool := false
  fragmentOffset : ℕ := 0
  payloadSize : ℕ := 0
  calcChecksum : Bool := false
deriving DecidableEq

abbrev Ipv4Packet := List UInt8 × Ipv4Header

namespace Ipv4Header

variable (h : Ipv4Header)

def getSerializedSize (_ : Ipv4Header) : ℕ := 5 * 4

def isLastFragment : Bool := ! h.moreFragments

/-- `SetFragmentOffset`, on a `uint16_t`. -/
def setFragmentOffset (offsetBytes : ℕ) : Option Ipv4Header :=
  if offsetBytes % 8 ≠ 0 then none else some { h with fragmentOffset := offsetBytes }

end Ipv4Header

/-- `Packet::CreateFragment`. -/
def createFragment (p : List UInt8) (start length : ℕ) : List UInt8 := slice p start (start + length)

def fragmentLoop (checksumEnabled : Bool) (p : List UInt8) (ipv4Header : Ipv4Header) (fragmentSize : ℕ) :
    ℕ → ℕ → Option (List Ipv4Packet)
  | 0, _ => none
  | fuel + 1, offset =>
    let moreFragment := p.length > offset + fragmentSize
    let size := if moreFragment then fragmentSize else p.length - offset
    let header := { ipv4Header with moreFragments := decide moreFragment || ! ipv4Header.isLastFragment }
    (header.setFragmentOffset ((offset + ipv4Header.fragmentOffset) % 2 ^ 16)).bind fun header =>
      let header := { header with
                      payloadSize := size % 2 ^ 16
                      calcChecksum := header.calcChecksum || checksumEnabled }
      let fragment := createFragment p offset size
      if moreFragment then
        (fragmentLoop checksumEnabled p ipv4Header fragmentSize fuel ((offset + size) % 2 ^ 16)).map ((fragment, header) :: ·)
      else some [(fragment, header)]

/-- `DoFragmentation`, with a bound for its loop. -/
def doFragmentation (checksumEnabled : Bool) (fuel : ℕ) (packet : Ipv4Packet) (outIfaceMtu : ℕ) : Option (List Ipv4Packet) :=
  let fragmentSize := (outIfaceMtu - packet.2.getSerializedSize) / 8 * 8
  fragmentLoop checksumEnabled packet.1 packet.2 fragmentSize fuel 0

/-! ## Putting together -/

structure Fragments where
  moreFragment : Bool := false
  fragments : List (List UInt8 × ℕ) := []

namespace Fragments

/-- A fragment is put before the first one with a greater offset. -/
def insertFragment (f : List UInt8 × ℕ) : List (List UInt8 × ℕ) → List (List UInt8 × ℕ)
  | [] => [f]
  | g :: rest => if g.2 > f.2 then f :: g :: rest else g :: insertFragment f rest

variable (s : Fragments)

def addFragment (fragment : List UInt8) (fragmentOffset : ℕ) (moreFragment : Bool) : Fragments where
  moreFragment := if s.fragments.any fun g => g.2 > fragmentOffset then s.moreFragment else moreFragment
  fragments := insertFragment (fragment, fragmentOffset) s.fragments

/-- The loop of `IsEntire`, in `uint16_t`. -/
def noGap : ℕ → List (List UInt8 × ℕ) → Bool
  | _, [] => true
  | lastEndOffset, g :: rest =>
    if lastEndOffset < g.2 then false else noGap (max lastEndOffset ((g.1.length + g.2) % 2 ^ 16)) rest

def isEntire : Bool := ! s.moreFragment && s.fragments.length > 0 && noGap 0 s.fragments

/-- The loop of `GetPacket`. -/
def appendFragments : List UInt8 → List (List UInt8 × ℕ) → List UInt8
  | p, [] => p
  | p, g :: rest =>
    let lastEndOffset := p.length % 2 ^ 16
    if lastEndOffset > g.2 then
      let newStart := lastEndOffset - g.2
      if g.1.length > newStart then appendFragments (p ++ createFragment g.1 newStart (g.1.length - newStart)) rest
      else appendFragments p rest
    else appendFragments (p ++ g.1) rest

def getPacket : List UInt8 :=
  match s.fragments with
  | [] => []
  | g :: rest => appendFragments g.1 rest

end Fragments

abbrev FragmentKey := UInt64 × UInt32

def Ipv4Header.key (h : Ipv4Header) : FragmentKey :=
  (h.source.toUInt64 <<< 32 ||| h.destination.toUInt64, h.identification.toUInt32 <<< 16 ||| h.protocol.toUInt32)

abbrev MapFragments := FragmentKey → Option Fragments

def processFragment (s : MapFragments) (packet : Ipv4Packet) : Bool × List UInt8 × MapFragments :=
  let key := packet.2.key
  let fragments := ((s key).getD {}).addFragment packet.1 packet.2.fragmentOffset (! packet.2.isLastFragment)
  if fragments.isEntire then (true, fragments.getPacket, update s key none)
  else (false, packet.1, update s key (some fragments))

/-! ## What arrives -/

/-- What makes a datagram different from others that are on their way. -/
abbrev FlowKey := UInt32 × UInt32 × UInt16 × UInt8

def Ipv4Header.flow (h : Ipv4Header) : FlowKey := (h.source, h.destination, h.identification, h.protocol)

/-- **What can arrive** of the datagrams with these payloads: they can be cut again and again, on different ways. -/
inductive Fragment (payload : FlowKey → List UInt8) : Ipv4Packet → Prop where
  | whole (h : Ipv4Header) (hoffset : h.fragmentOffset = 0) (hlast : h.moreFragments = false) :
    Fragment payload (payload h.flow, h)
  | cut {p g : Ipv4Packet} {l : List Ipv4Packet} {checksumEnabled : Bool} {fuel mtu : ℕ} (hp : Fragment payload p)
    (hmtu : 68 ≤ mtu) (hl : doFragmentation checksumEnabled fuel p mtu = some l) (hg : g ∈ l) : Fragment payload g

def item (g : Ipv4Packet) : List UInt8 × ℕ := (g.1, g.2.fragmentOffset)

/-- All of the payload is there. -/
def Covered (d : List UInt8) (l : List Ipv4Packet) : Prop := l ≠ [] ∧ Covers 0 d.length (l.map item)

open scoped Classical in
/-- The fragments of each datagram that arrived since it was last complete. -/
noncomputable def received (payload : FlowKey → List UInt8) (arrivals : List Ipv4Packet) : FlowKey → List Ipv4Packet :=
  arrivals.foldl (fun w g =>
    update w g.2.flow (if Covered (payload g.2.flow) (w g.2.flow ++ [g]) then [] else w g.2.flow ++ [g])) fun _ => []

def reassembled (arrivals : List Ipv4Packet) : MapFragments :=
  arrivals.foldl (fun s g => (processFragment s g).2.2) fun _ => none

/-- **The right answer** to a packet: the payload when all of it is there with this packet, and else nothing. -/
def Right (payload : FlowKey → List UInt8) (arrivals : List Ipv4Packet) (g : Ipv4Packet) : Prop :=
  let answer := processFragment (reassembled arrivals) g
  (answer.1 = true ↔ Covered (payload g.2.flow) (received payload arrivals g.2.flow ++ [g])) ∧
    (answer.1 = true → answer.2.1 = payload g.2.flow)

/-- The fragment with the greatest offset, the last one of those. -/
def topmost (l : List Ipv4Packet) : Option Ipv4Packet :=
  l.foldl (fun top g => top.elim (some g) fun t => if t.2.fragmentOffset ≤ g.2.fragmentOffset then some g else some t) none

def EndsOnTop (payload : FlowKey → List UInt8) (arrivals : List Ipv4Packet) (g : Ipv4Packet) : Prop :=
  Covered (payload g.2.flow) (received payload arrivals g.2.flow ++ [g]) →
    ∀ t, topmost (received payload arrivals g.2.flow ++ [g]) = some t → t.2.moreFragments = false

/-! ### Cuts -/

structure Part (p g : Ipv4Packet) : Prop where
  flow : g.2.flow = p.2.flow
  start : p.2.fragmentOffset ≤ g.2.fragmentOffset
  eq : g.1 = slice p.1 (g.2.fragmentOffset - p.2.fragmentOffset) (stop (item g) - p.2.fragmentOffset)
  le : stop (item g) ≤ stop (item p)
  aligned : 8 ∣ g.2.fragmentOffset
  more : g.2.moreFragments = (decide (stop (item g) < stop (item p)) || p.2.moreFragments)
  whole : stop (item g) < stop (item p) → 8 ∣ g.1.length
  nonempty : p.1 ≠ [] → g.1 ≠ []

section Cuts

variable {p : List UInt8} {h : Ipv4Header} {checksumEnabled : Bool} {fragmentSize : ℕ}

theorem length_createFragment {start length : ℕ} (h : start + length ≤ p.length) :
    (createFragment p start length).length = length := by
  rw [createFragment, length_slice h, Nat.add_sub_cancel_left]

def fragmentAt (checksumEnabled : Bool) (p : List UInt8) (h : Ipv4Header) (offset size : ℕ) (more : Bool) : Ipv4Packet :=
  (createFragment p offset size,
    { h with
      moreFragments := more || h.moreFragments
      fragmentOffset := h.fragmentOffset + offset
      payloadSize := size % 2 ^ 16
      calcChecksum := h.calcChecksum || checksumEnabled })

theorem part_fragmentAt {offset size : ℕ} {more : Bool} (hle : offset + size ≤ p.length)
    (haligned : 8 ∣ h.fragmentOffset + offset) (hmore : more = decide (offset + size < p.length))
    (hwhole : offset + size < p.length → 8 ∣ size) (hpos : p ≠ [] → 0 < size) :
    Part (p, h) (fragmentAt checksumEnabled p h offset size more) := by
  have hlength : (createFragment p offset size).length = size := length_createFragment hle
  have hstop : stop (item (fragmentAt checksumEnabled p h offset size more)) = h.fragmentOffset + offset + size := by
    show h.fragmentOffset + offset + (createFragment p offset size).length = _
    rw [hlength]
  have hend : stop (item (p, h)) = h.fragmentOffset + p.length := rfl
  refine ⟨rfl, Nat.le_add_right _ _, ?_, ?_, haligned, ?_, fun hlt => ?_, fun hne => ?_⟩
  · rw [hstop]
    show createFragment p offset size = slice p (h.fragmentOffset + offset - h.fragmentOffset) _
    rw [createFragment, Nat.add_sub_cancel_left, Nat.add_assoc, Nat.add_sub_cancel_left]
  · omega
  · show (more || h.moreFragments) = _
    rw [hstop, hend, hmore]
    congr 1
    rw [decide_eq_decide]
    omega
  · show 8 ∣ (createFragment p offset size).length
    rw [hlength]
    exact hwhole (by omega)
  · show createFragment p offset size ≠ []
    rw [← List.length_pos_iff, hlength]
    exact hpos hne

/-- **The loop ends**, and makes parts. -/
theorem fragmentLoop_eq (checksumEnabled : Bool) (hsize : 0 < fragmentSize) (h8 : 8 ∣ fragmentSize) (hoffset : 8 ∣ h.fragmentOffset)
    (hlength : h.fragmentOffset + p.length < 2 ^ 16) {n offset : ℕ} (hn : p.length - offset < n) (ho : 8 ∣ offset)
    (hlt : offset ≤ p.length) (hne : p ≠ [] → offset < p.length) :
    ∃ l, (∀ fuel, n ≤ fuel → fragmentLoop checksumEnabled p h fragmentSize fuel offset = some l) ∧
      (∀ g ∈ l, Part (p, h) g) ∧ ∀ g ∈ l.dropLast, g.2.moreFragments = true := by
  induction n generalizing offset with
  | zero => omega
  | succ n ih =>
    have hsum : (offset + h.fragmentOffset) % 2 ^ 16 = h.fragmentOffset + offset := by omega
    have haligned : ¬ (h.fragmentOffset + offset) % 8 ≠ 0 := by omega
    by_cases hmore : p.length > offset + fragmentSize
    · obtain ⟨l, hl, hparts, hlast⟩ := ih (by omega) (by omega : 8 ∣ offset + fragmentSize) hmore.le fun _ => hmore
      have hnext : (offset + fragmentSize) % 2 ^ 16 = offset + fragmentSize := by omega
      refine ⟨fragmentAt checksumEnabled p h offset fragmentSize true :: l, fun fuel hfuel => ?_, fun g hg => ?_,
        fun g hg => ?_⟩
      · obtain ⟨fuel, rfl⟩ : ∃ k, fuel = k + 1 := ⟨fuel - 1, by omega⟩
        rw [fragmentLoop]
        simp only [hmore, ↓reduceIte, decide_true, Bool.true_or, hsum, Ipv4Header.setFragmentOffset, if_neg haligned,
          Option.bind_some, hnext]
        rw [hl fuel (by omega)]
        rfl
      · rcases List.mem_cons.mp hg with rfl | hg
        · exact part_fragmentAt hmore.le (by omega) (decide_eq_true hmore).symm (fun _ => h8) fun _ => hsize
        · exact hparts g hg
      · cases l with
        | nil => exact absurd hg List.not_mem_nil
        | cons a l =>
          rcases List.mem_cons.mp hg with rfl | hg
          · exact Bool.true_or h.moreFragments
          · exact hlast g hg
    · refine ⟨[fragmentAt checksumEnabled p h offset (p.length - offset) false], fun fuel hfuel => ?_, fun g hg => ?_,
        fun g hg => absurd hg List.not_mem_nil⟩
      · obtain ⟨fuel, rfl⟩ : ∃ k, fuel = k + 1 := ⟨fuel - 1, by omega⟩
        rw [fragmentLoop]
        simp only [hmore, ↓reduceIte, decide_false, Bool.false_or, hsum, Ipv4Header.setFragmentOffset, if_neg haligned,
          Option.bind_some, Ipv4Header.isLastFragment, Bool.not_not]
        rfl
      · rw [List.mem_singleton.mp hg]
        refine part_fragmentAt (by omega) (by omega) (decide_eq_false (by omega)).symm (fun hlt => by omega) fun hp => ?_
        have hpos := hne hp
        omega

/-- **Fragmentation ends**, for a link that can carry a header and something more. -/
theorem doFragmentation_eq (checksumEnabled : Bool) {g : Ipv4Packet} {mtu : ℕ} (hmtu : 68 ≤ mtu) (hoffset : 8 ∣ g.2.fragmentOffset)
    (hlength : stop (item g) < 2 ^ 16) :
    ∃ l, (∀ fuel, g.1.length < fuel → doFragmentation checksumEnabled fuel g mtu = some l) ∧ (∀ g' ∈ l, Part g g') ∧
      ∀ g' ∈ l.dropLast, g'.2.moreFragments = true := by
  have hsize : (mtu - g.2.getSerializedSize) / 8 * 8 = (mtu - 20) / 8 * 8 := rfl
  have hend : stop (item g) = g.2.fragmentOffset + g.1.length := rfl
  obtain ⟨l, hl, hparts, hlast⟩ := fragmentLoop_eq checksumEnabled (by omega : 0 < (mtu - g.2.getSerializedSize) / 8 * 8)
    (Nat.dvd_mul_left 8 _) hoffset (p := g.1) (by omega) (n := g.1.length + 1) (Nat.lt_succ_self _) (dvd_zero 8)
    (Nat.zero_le _) fun hne => List.length_pos_iff.mpr hne
  exact ⟨l, fun fuel hfuel => hl fuel hfuel, hparts, hlast⟩

theorem fragmentLoop_mono {fuel fuel' offset : ℕ} {l : List Ipv4Packet} (hle : fuel ≤ fuel')
    (hl : fragmentLoop checksumEnabled p h fragmentSize fuel offset = some l) :
    fragmentLoop checksumEnabled p h fragmentSize fuel' offset = some l := by
  induction fuel generalizing fuel' offset l with
  | zero => cases hl
  | succ fuel ih =>
    obtain ⟨fuel', rfl⟩ : ∃ k, fuel' = k + 1 := ⟨fuel' - 1, by omega⟩
    rw [fragmentLoop] at hl ⊢
    obtain ⟨header, hheader, hl⟩ := Option.bind_eq_some_iff.mp hl
    dsimp only at hheader hl ⊢
    rw [hheader, Option.bind_some]
    split_ifs at hl ⊢ with hmore
    · obtain ⟨rest, hrest, rfl⟩ := Option.map_eq_some_iff.mp hl
      rw [ih (by omega) hrest, Option.map_some]
    · exact hl

theorem part_of_mem {g g' : Ipv4Packet} {fuel mtu : ℕ} {l : List Ipv4Packet} (hmtu : 68 ≤ mtu)
    (hoffset : 8 ∣ g.2.fragmentOffset) (hlength : stop (item g) < 2 ^ 16)
    (hl : doFragmentation checksumEnabled fuel g mtu = some l) (hg : g' ∈ l) : Part g g' := by
  obtain ⟨l', hl', hparts, -⟩ := doFragmentation_eq checksumEnabled hmtu hoffset hlength
  have hsame := hl' (max fuel (g.1.length + 1)) (by omega)
  rw [doFragmentation, fragmentLoop_mono (le_max_left _ _) hl, Option.some.injEq] at hsame
  exact hparts g' (hsame ▸ hg)

end Cuts

/-- A fragment of a datagram is as the datagram is there, and only one that ends it has no more fragments. -/
structure Sound (d : List UInt8) (g : Ipv4Packet) : Prop where
  piece : IsPiece d (item g)
  aligned : 8 ∣ g.2.fragmentOffset
  more : g.2.moreFragments = decide (stop (item g) < d.length)
  whole : g.2.moreFragments = true → 8 ∣ g.1.length
  nonempty : d ≠ [] → g.1 ≠ []

section Pieces

variable {payload : FlowKey → List UInt8} {g g' : Ipv4Packet} {d : List UInt8}

theorem Sound.part (hg : Sound d g) (hg' : Part g g') : Sound d g' := by
  have hle := hg'.le.trans hg.piece.le
  have hstart : g'.2.fragmentOffset ≤ stop (item g') := Nat.le_add_right _ _
  have hmore : g'.2.moreFragments = decide (stop (item g') < d.length) := by
    rw [hg'.more, hg.more, ← Bool.decide_or, decide_eq_decide]
    have hle' := hg'.le
    have hle'' := hg.piece.le
    omega
  refine ⟨⟨?_, hle⟩, hg'.aligned, hmore, fun hmf => ?_, fun hne => hg'.nonempty (hg.nonempty hne)⟩
  · show g'.1 = _
    have hsub := hg'.start
    have hin := hg'.le
    have hend : stop (item g) = g.2.fragmentOffset + g.1.length := rfl
    have hg1 : g.1 = slice d g.2.fragmentOffset (stop (item g)) := hg.piece.eq
    rw [hg'.eq, hg1, slice_slice (by omega), Nat.add_sub_cancel' hsub, Nat.add_sub_cancel' (hsub.trans hstart)]
    rfl
  · have hends : stop (item g) = g.2.fragmentOffset + g.1.length := rfl
    have hends' : stop (item g') = g'.2.fragmentOffset + g'.1.length := rfl
    have haligned := hg.aligned
    have haligned' := hg'.aligned
    by_cases hshort : stop (item g') < stop (item g)
    · exact hg'.whole hshort
    · have hmf' := hg'.more
      rw [hmf, decide_eq_false hshort, Bool.false_or] at hmf'
      have hwhole := hg.whole hmf'.symm
      have hle' := hg'.le
      omega

/-- **What arrives** is of the datagram. -/
theorem Fragment.sound (hsize : ∀ k, (payload k).length ≤ 65515) (hg : Fragment payload g) :
    Sound (payload g.2.flow) g := by
  induction hg with
  | whole h hoffset hlast =>
    have hend : stop (item (payload h.flow, h)) = (payload h.flow).length := by
      rw [stop, item, hoffset, Nat.zero_add]
    refine ⟨⟨?_, hend.le⟩, hoffset ▸ dvd_zero 8, ?_, fun hmf => ?_, id⟩
    · rw [hend]
      show payload h.flow = slice _ h.fragmentOffset _
      rw [hoffset, slice, List.drop_zero, Nat.sub_zero, List.take_length]
    · rw [hend, decide_eq_false (lt_irrefl _)]
      exact hlast
    · exact absurd (hmf.symm.trans hlast) Bool.true_eq_false_eq_False
  | cut hp hmtu hl hg ih =>
    have hlt := ih.piece.le.trans (hsize _)
    have hpart := part_of_mem hmtu ih.aligned (by omega) hl hg
    rw [hpart.flow]
    exact ih.part hpart

end Pieces

/-! ## The list of fragments -/

theorem or_shiftLeft_eq_iff {a b c d i : ℕ} (hb : b < 2 ^ i) (hd : d < 2 ^ i) :
    a <<< i ||| b = c <<< i ||| d ↔ a = c ∧ b = d := by
  rw [← Nat.shiftLeft_add_eq_or_of_lt hb, ← Nat.shiftLeft_add_eq_or_of_lt hd, Nat.shiftLeft_eq, Nat.shiftLeft_eq]
  constructor
  · intro h
    have hmod := congrArg (· % 2 ^ i) h
    simp only [Nat.mul_add_mod_self_right, Nat.mod_eq_of_lt hb, Nat.mod_eq_of_lt hd] at hmod
    refine ⟨Nat.eq_of_mul_eq_mul_right (Nat.two_pow_pos i) ?_, hmod⟩
    omega
  · rintro ⟨rfl, rfl⟩
    rfl

theorem toNat_key_fst (h : Ipv4Header) : h.key.1.toNat = h.source.toNat <<< 32 ||| h.destination.toNat := by
  have hlt := h.source.toNat_lt
  have hshift : (32 : UInt64).toNat % 64 = 32 := by decide
  rw [Ipv4Header.key, UInt64.toNat_or, UInt64.toNat_shiftLeft, UInt32.toNat_toUInt64, UInt32.toNat_toUInt64, hshift,
    Nat.shiftLeft_eq, Nat.mod_eq_of_lt]
  omega

theorem toNat_key_snd (h : Ipv4Header) : h.key.2.toNat = h.identification.toNat <<< 16 ||| h.protocol.toNat := by
  have hlt := h.identification.toNat_lt
  have hshift : (16 : UInt32).toNat % 32 = 16 := by decide
  rw [Ipv4Header.key, UInt32.toNat_or, UInt32.toNat_shiftLeft, UInt16.toNat_toUInt32, UInt8.toNat_toUInt32, hshift,
    Nat.shiftLeft_eq, Nat.mod_eq_of_lt]
  omega

/-- **Keys tell datagrams apart.** -/
theorem key_eq_iff {h h' : Ipv4Header} : h.key = h'.key ↔ h.flow = h'.flow := by
  have hdst := h.destination.toNat_lt
  have hdst' := h'.destination.toNat_lt
  have hproto := h.protocol.toNat_lt
  have hproto' := h'.protocol.toNat_lt
  rw [Prod.ext_iff, ← UInt64.toNat_inj, ← UInt32.toNat_inj, toNat_key_fst, toNat_key_fst, toNat_key_snd, toNat_key_snd,
    or_shiftLeft_eq_iff hdst hdst', or_shiftLeft_eq_iff (by omega) (by omega), UInt32.toNat_inj, UInt32.toNat_inj,
    UInt16.toNat_inj, UInt8.toNat_inj, Ipv4Header.flow, Ipv4Header.flow, Prod.mk.injEq, Prod.mk.injEq, Prod.mk.injEq,
    and_assoc]

section Gathered

variable {l : List Ipv4Packet} {g t : Ipv4Packet} {d : List UInt8} {e : ℕ} {pieces : List (List UInt8 × ℕ)}

def gathered (l : List Ipv4Packet) : Fragments :=
  l.foldl (fun s g => s.addFragment g.1 g.2.fragmentOffset (! g.2.isLastFragment)) {}

theorem gathered_append (l : List Ipv4Packet) (g : Ipv4Packet) :
    gathered (l ++ [g]) = (gathered l).addFragment g.1 g.2.fragmentOffset (! g.2.isLastFragment) := by
  rw [gathered, List.foldl_append]
  rfl

theorem perm_insertFragment (f : List UInt8 × ℕ) (pieces : List (List UInt8 × ℕ)) :
    (Fragments.insertFragment f pieces).Perm (f :: pieces) := by
  induction pieces with
  | nil => exact List.Perm.refl _
  | cons p rest ih =>
    rw [Fragments.insertFragment]
    split_ifs
    · exact List.Perm.refl _
    · exact (ih.cons p).trans (List.Perm.swap f p rest)

theorem pairwise_insertFragment (f : List UInt8 × ℕ) (h : pieces.Pairwise fun p q => p.2 ≤ q.2) :
    (Fragments.insertFragment f pieces).Pairwise fun p q => p.2 ≤ q.2 := by
  induction pieces with
  | nil => exact List.pairwise_singleton _ f
  | cons p rest ih =>
    obtain ⟨hfirst, hrest⟩ := List.pairwise_cons.mp h
    rw [Fragments.insertFragment]
    split_ifs with hlt
    · refine List.pairwise_cons.mpr ⟨fun q hq => ?_, h⟩
      rcases List.mem_cons.mp hq with rfl | hq
      · exact hlt.le
      · exact hlt.le.trans (hfirst q hq)
    · refine List.pairwise_cons.mpr ⟨fun q hq => ?_, ih hrest⟩
      rcases List.mem_cons.mp ((perm_insertFragment f rest).mem_iff.mp hq) with rfl | hq
      · exact not_lt.mp hlt
      · exact hfirst q hq

section

variable (l : List Ipv4Packet)

theorem perm_gathered : (gathered l).fragments.Perm (l.map item) := by
  induction l using List.reverseRecOn with
  | nil => exact List.Perm.refl _
  | append_singleton l g ih =>
    rw [gathered_append, List.map_append]
    exact (perm_insertFragment _ _).trans ((ih.cons (item g)).trans (List.perm_append_singleton _ _).symm)

theorem pairwise_gathered : (gathered l).fragments.Pairwise fun p q => p.2 ≤ q.2 := by
  induction l using List.reverseRecOn with
  | nil => exact List.Pairwise.nil
  | append_singleton l g ih =>
    rw [gathered_append]
    exact pairwise_insertFragment _ ih

theorem topmost_append (g : Ipv4Packet) : topmost (l ++ [g]) =
    (topmost l).elim (some g) fun t => if t.2.fragmentOffset ≤ g.2.fragmentOffset then some g else some t := by
  rw [topmost, List.foldl_append]
  rfl

theorem topmost_spec : l = [] ∧ topmost l = none ∨
    ∃ t, topmost l = some t ∧ t ∈ l ∧ ∀ g ∈ l, g.2.fragmentOffset ≤ t.2.fragmentOffset := by
  induction l using List.reverseRecOn with
  | nil => exact .inl ⟨rfl, rfl⟩
  | append_singleton l g ih =>
    right
    rw [topmost_append]
    obtain ⟨rfl, htop⟩ | ⟨t, htop, ht, hmax⟩ := ih
    · exact ⟨g, rfl, List.mem_singleton_self g, fun g' hg' => (List.mem_singleton.mp hg') ▸ le_rfl⟩
    · rw [htop, Option.elim_some]
      split_ifs with hle
      · refine ⟨g, rfl, List.mem_append_right _ (List.mem_singleton_self g), fun g' hg' => ?_⟩
        rcases List.mem_append.mp hg' with hg' | hg'
        · exact (hmax g' hg').trans hle
        · exact (List.mem_singleton.mp hg') ▸ le_rfl
      · refine ⟨t, rfl, List.mem_append_left _ ht, fun g' hg' => ?_⟩
        rcases List.mem_append.mp hg' with hg' | hg'
        · exact hmax g' hg'
        · rw [List.mem_singleton.mp hg']
          omega

/-- **The flag** is that of the topmost fragment. -/
theorem moreFragment_gathered : (gathered l).moreFragment = (topmost l).elim false fun t => t.2.moreFragments := by
  induction l using List.reverseRecOn with
  | nil => rfl
  | append_singleton l g ih =>
    have hany : ((gathered l).fragments.any fun p => p.2 > g.2.fragmentOffset) = true ↔
        ∃ g' ∈ l, g'.2.fragmentOffset > g.2.fragmentOffset := by
      rw [List.any_eq_true]
      simp only [(perm_gathered l).mem_iff, List.mem_map, decide_eq_true_eq, exists_exists_and_eq_and]
      rfl
    have hlast : (! g.2.isLastFragment) = g.2.moreFragments := Bool.not_not _
    rw [gathered_append, topmost_append, Fragments.addFragment, hlast]
    dsimp only
    obtain ⟨rfl, htop⟩ | ⟨t, htop, ht, hmax⟩ := topmost_spec l
    · rw [htop]
      rfl
    · rw [htop, Option.elim_some] at ih ⊢
      by_cases hle : t.2.fragmentOffset ≤ g.2.fragmentOffset
      · rw [if_pos hle, if_neg, Option.elim_some]
        rw [hany]
        rintro ⟨g', hg', hlt⟩
        exact absurd (hmax g' hg') (by omega)
      · rw [if_neg hle, if_pos (hany.mpr ⟨t, ht, not_le.mp hle⟩), Option.elim_some, ih]

end

theorem noGap_eq (hl : ∀ p ∈ pieces, stop p < 2 ^ 16) : Fragments.noGap e pieces = contiguous e pieces := by
  induction pieces generalizing e with
  | nil => rfl
  | cons p rest ih =>
    have hstop : (p.1.length + p.2) % 2 ^ 16 = stop p := by
      rw [Nat.add_comm]
      exact Nat.mod_eq_of_lt (hl p List.mem_cons_self)
    rw [Fragments.noGap, contiguous, hstop, ih fun q hq => hl q (List.mem_cons_of_mem p hq)]

theorem appendFragments_cons {acc : List UInt8} (p : List UInt8 × ℕ) (hacc : acc.length < 2 ^ 16) :
    Fragments.appendFragments acc (p :: pieces) = Fragments.appendFragments (extend acc p) pieces := by
  rw [Fragments.appendFragments, Nat.mod_eq_of_lt hacc, extend]
  dsimp only
  split_ifs with hover hmore
  · rw [createFragment, slice, Nat.add_sub_cancel_left, List.take_of_length_le (by rw [List.length_drop])]
  · rw [List.drop_of_length_le (not_lt.mp hmore), List.append_nil]
  · rw [Nat.sub_eq_zero_of_le (not_lt.mp hover), List.drop_zero]

/-- **Fragments without a gap** are put together. -/
theorem appendFragments_eq (hd : d.length < 2 ^ 16) (hl : ∀ p ∈ pieces, IsPiece d p) (he : e ≤ d.length)
    (h : contiguous e pieces = true) : Fragments.appendFragments (d.take e) pieces = d.take (reach e pieces) := by
  induction pieces generalizing e with
  | nil => rfl
  | cons p rest ih =>
    rw [contiguous] at h
    split_ifs at h with hgap
    have hp := hl p List.mem_cons_self
    rw [appendFragments_cons p (by rw [List.length_take]; omega), extend_take hp he (not_lt.mp hgap)]
    exact ih (fun q hq => hl q (List.mem_cons_of_mem p hq)) (max_le he hp.le) h

/-- **The test for a complete datagram** is right when the topmost fragment ends it. -/
theorem isEntire_gathered (hd : d.length ≤ 65515) (hl : ∀ g ∈ l, Sound d g) :
    (gathered l).isEntire = true ↔ Covered d l ∧ ∀ t, topmost l = some t → t.2.moreFragments = false := by
  have hperm := perm_gathered l
  have hpieces : ∀ p ∈ (gathered l).fragments, IsPiece d p := by
    intro p hp
    obtain ⟨g, hg, rfl⟩ := List.mem_map.mp (hperm.mem_iff.mp hp)
    exact (hl g hg).piece
  have hcovers : ∀ hi, Covers 0 hi (gathered l).fragments ↔ Covers 0 hi (l.map item) := fun hi => by
    simp only [Covers, hperm.mem_iff]
  rw [Fragments.isEntire, noGap_eq fun p hp => by have := (hpieces p hp).le; omega, moreFragment_gathered,
    hperm.length_eq, List.length_map, Bool.and_eq_true, Bool.and_eq_true, Bool.not_eq_true', decide_eq_true_eq]
  obtain ⟨rfl, htop⟩ | ⟨t, htop, ht, hmax⟩ := topmost_spec l
  · exact iff_of_false (fun h => absurd h.1.2 (lt_irrefl _)) fun h => h.1.1 rfl
  · rw [htop, Option.elim_some]
    constructor
    · rintro ⟨⟨hlast, hpos⟩, hgap⟩
      refine ⟨⟨List.length_pos_iff.mp hpos, fun i hi hi' => ?_⟩, fun t' ht' => Option.some.inj ht' ▸ hlast⟩
      have hend := (hl t ht).more
      rw [hlast, eq_comm, decide_eq_false_iff_not, not_lt] at hend
      have hreach := stop_le_reach (e := 0) (hperm.mem_iff.mpr (List.mem_map_of_mem (f := item) ht))
      obtain hcover := covers_of_contiguous hgap
      rw [hcovers] at hcover
      exact hcover i hi (by omega)
    · rintro ⟨⟨hne, hcover⟩, hlast⟩
      refine ⟨⟨hlast t rfl, List.length_pos_iff.mpr hne⟩, ?_⟩
      refine contiguous_of_covers (pairwise_gathered l) (fun p hp => ?_) ((hcovers _).mpr hcover)
      exact (Nat.le_add_right _ _).trans (hpieces p hp).le

theorem getPacket_gathered (hd : d.length ≤ 65515) (hl : ∀ g ∈ l, Sound d g) (h : (gathered l).isEntire = true) :
    (gathered l).getPacket = d := by
  obtain ⟨⟨hne, hcover⟩, -⟩ := (isEntire_gathered hd hl).mp h
  have hperm := perm_gathered l
  have hpieces : ∀ p ∈ (gathered l).fragments, IsPiece d p := by
    intro p hp
    obtain ⟨g, hg, rfl⟩ := List.mem_map.mp (hperm.mem_iff.mp hp)
    exact (hl g hg).piece
  have hcover' : Covers 0 d.length (gathered l).fragments := by
    simpa only [Covers, hperm.mem_iff] using hcover
  have hgap := contiguous_of_covers (pairwise_gathered l)
    (fun p hp => (Nat.le_add_right _ _).trans (hpieces p hp).le) hcover'
  have hreach : reach 0 (gathered l).fragments = d.length := by
    refine le_antisymm (reach_le (Nat.zero_le _) fun p hp => (hpieces p hp).le) (not_lt.mp fun hlt => ?_)
    obtain ⟨p, hp, -, hbeyond⟩ := hcover' _ (Nat.zero_le _) hlt
    exact absurd (stop_le_reach (e := 0) hp) (not_le.mpr hbeyond)
  have hall := appendFragments_eq (by omega) hpieces (Nat.zero_le _) hgap
  rw [hreach, List.take_length] at hall
  rw [Fragments.getPacket]
  cases hfragments : (gathered l).fragments with
  | nil => exact absurd (List.map_eq_nil_iff.mp (List.perm_nil.mp (hfragments ▸ hperm).symm)) hne
  | cons p rest =>
    rw [hfragments, appendFragments_cons p (by simp)] at hall
    simpa [extend] using hall

end Gathered

/-! ## Runs -/

section Runs

variable {payload : FlowKey → List UInt8} {arrivals : List Ipv4Packet} {g : Ipv4Packet}

theorem received_append (payload : FlowKey → List UInt8) (arrivals : List Ipv4Packet) (g : Ipv4Packet) :
    (Covered (payload g.2.flow) (received payload arrivals g.2.flow ++ [g]) →
      received payload (arrivals ++ [g]) = update (received payload arrivals) g.2.flow []) ∧
    (¬ Covered (payload g.2.flow) (received payload arrivals g.2.flow ++ [g]) →
      received payload (arrivals ++ [g]) =
        update (received payload arrivals) g.2.flow (received payload arrivals g.2.flow ++ [g])) := by
  classical
  have hfold : received payload (arrivals ++ [g]) = update (received payload arrivals) g.2.flow
      (if Covered (payload g.2.flow) (received payload arrivals g.2.flow ++ [g]) then []
        else received payload arrivals g.2.flow ++ [g]) := by
    rw [received, received, List.foldl_append]
    simp only [List.foldl_cons, List.foldl_nil]
  constructor <;> intro hcover
  · rw [hfold, if_pos hcover]
  · rw [hfold, if_neg hcover]

theorem sound_received (hsize : ∀ k, (payload k).length ≤ 65515) (hfrag : ∀ g ∈ arrivals, Fragment payload g)
    {k : FlowKey} (hg : g ∈ received payload arrivals k) : Sound (payload k) g := by
  induction arrivals using List.reverseRecOn generalizing k with
  | nil => exact absurd hg List.not_mem_nil
  | append_singleton arrivals a ih =>
    have hold : ∀ {k}, g ∈ received payload arrivals k → Sound (payload k) g :=
      ih fun g hg => hfrag g (List.mem_append_left _ hg)
    have hnew := received_append payload arrivals a
    by_cases hk : k = a.2.flow
    · subst hk
      by_cases hcover : Covered (payload a.2.flow) (received payload arrivals a.2.flow ++ [a])
      · rw [hnew.1 hcover, update_self] at hg
        exact absurd hg List.not_mem_nil
      · rw [hnew.2 hcover, update_self] at hg
        rcases List.mem_append.mp hg with hg | hg
        · exact hold hg
        · rw [List.mem_singleton.mp hg]
          exact (hfrag a (List.mem_append_right _ (List.mem_singleton_self a))).sound hsize
    · refine hold ?_
      by_cases hcover : Covered (payload a.2.flow) (received payload arrivals a.2.flow ++ [a])
      · rwa [hnew.1 hcover, update_of_ne hk] at hg
      · rwa [hnew.2 hcover, update_of_ne hk] at hg

/-- The map has what was received. -/
def Collected (payload : FlowKey → List UInt8) (arrivals : List Ipv4Packet) : Prop :=
  ∀ h : Ipv4Header, reassembled arrivals h.key =
    if received payload arrivals h.flow = [] then none else some (gathered (received payload arrivals h.flow))

theorem Collected.addFragment (h : Collected payload arrivals) (g : Ipv4Packet) :
    ((reassembled arrivals g.2.key).getD {}).addFragment g.1 g.2.fragmentOffset (! g.2.isLastFragment) =
      gathered (received payload arrivals g.2.flow ++ [g]) := by
  rw [h g.2, gathered_append]
  split_ifs with hnil
  · rw [hnil]
    rfl
  · rfl

theorem right_iff (hsize : ∀ k, (payload k).length ≤ 65515) (hfrag : ∀ a ∈ arrivals ++ [g], Fragment payload a)
    (h : Collected payload arrivals) : Right payload arrivals g ↔ EndsOnTop payload arrivals g := by
  have hsound : ∀ a ∈ received payload arrivals g.2.flow ++ [g], Sound (payload g.2.flow) a := by
    intro a ha
    rcases List.mem_append.mp ha with ha | ha
    · exact sound_received hsize (fun b hb => hfrag b (List.mem_append_left _ hb)) ha
    · rw [List.mem_singleton.mp ha]
      exact (hfrag g (List.mem_append_right _ (List.mem_singleton_self g))).sound hsize
  have hentire := isEntire_gathered (hsize _) hsound
  have hpacket := getPacket_gathered (hsize _) hsound
  rw [Right, EndsOnTop, processFragment, h.addFragment g]
  by_cases hdone : (gathered (received payload arrivals g.2.flow ++ [g])).isEntire = true
  · rw [if_pos hdone]
    have hboth := hentire.mp hdone
    exact iff_of_true ⟨iff_of_true rfl hboth.1, fun _ => hpacket hdone⟩ fun _ => hboth.2
  · rw [if_neg hdone]
    constructor
    · rintro ⟨hiff, -⟩ hcover
      exact absurd (hiff.mpr hcover) Bool.false_ne_true
    · intro hends
      refine ⟨iff_of_false Bool.false_ne_true fun hcover => ?_, fun hfalse => absurd hfalse Bool.false_ne_true⟩
      exact hdone (hentire.mpr ⟨hcover, hends hcover⟩)

/-- **A right answer** keeps the map. -/
theorem Collected.step (h : Collected payload arrivals) (hright : Right payload arrivals g) :
    Collected payload (arrivals ++ [g]) := by
  have hmap : reassembled (arrivals ++ [g]) = (processFragment (reassembled arrivals) g).2.2 := by
    rw [reassembled, List.foldl_append]
    rfl
  have hnew := received_append payload arrivals g
  obtain ⟨hiff, -⟩ := hright
  intro h'
  rw [hmap]
  rw [processFragment, h.addFragment g] at hiff ⊢
  by_cases hdone : (gathered (received payload arrivals g.2.flow ++ [g])).isEntire = true
  · rw [if_pos hdone] at hiff ⊢
    show update (reassembled arrivals) g.2.key none h'.key = _
    rw [hnew.1 (hiff.mp rfl)]
    by_cases hkey : h'.flow = g.2.flow
    · rw [key_eq_iff.mpr hkey, hkey, update_self, update_self, if_pos rfl]
    · rw [update_of_ne (fun heq => hkey (key_eq_iff.mp heq)), update_of_ne hkey]
      exact h h'
  · rw [if_neg hdone] at hiff ⊢
    show update (reassembled arrivals) g.2.key (some (gathered (received payload arrivals g.2.flow ++ [g]))) h'.key = _
    rw [hnew.2 fun hcover => absurd (hiff.mpr hcover) Bool.false_ne_true]
    by_cases hkey : h'.flow = g.2.flow
    · rw [key_eq_iff.mpr hkey, hkey, update_self, update_self, if_neg (List.append_ne_nil_of_right_ne_nil _ (by simp))]
    · rw [update_of_ne (fun heq => hkey (key_eq_iff.mp heq)), update_of_ne hkey]
      exact h h'

/-- **Reassembly** gives the right answer all along a run of fragments exactly when the topmost fragment ends the datagram
each time that all of it is there. Cutting ends, and makes fragments of a multiple of eight bytes but for a last one. -/
theorem run_entire_iff (payload : FlowKey → List UInt8) (hsize : ∀ k, (payload k).length ≤ 65515)
    (arrivals : List Ipv4Packet) (hfrag : ∀ g ∈ arrivals, Fragment payload g) :
    ((∀ l g, l ++ [g] <+: arrivals → Right payload l g) ↔ ∀ l g, l ++ [g] <+: arrivals → EndsOnTop payload l g) ∧
      ∀ (checksumEnabled : Bool) (mtu : ℕ) (g : Ipv4Packet), 68 ≤ mtu → Fragment payload g →
        ∃ l, (∀ fuel, g.1.length < fuel → doFragmentation checksumEnabled fuel g mtu = some l) ∧
          (∀ g' ∈ l.dropLast, g'.2.moreFragments = true) ∧ ∀ g' ∈ l, g'.2.moreFragments = true → 8 ∣ g'.1.length := by
  refine ⟨RunLib.forall_step_iff_of_inv (R := Collected payload) (fun h => rfl) (fun l g _ h hright => h.step hright)
    fun l g hl h => right_iff hsize (fun a ha => hfrag a (hl.subset ha)) h, fun checksumEnabled mtu g hmtu hg => ?_⟩
  have hsound := hg.sound hsize
  have hlt := hsound.piece.le.trans (hsize _)
  obtain ⟨l, hl, hparts, hlast⟩ :=
    doFragmentation_eq checksumEnabled hmtu hsound.aligned (by omega)
  refine ⟨l, hl, hlast, fun g' hg' => ?_⟩
  have hpart := hparts g' hg'
  exact (hsound.part hpart).whole

/-! ### A last part that was cut twice -/

/-- A payload of 112 bytes for every datagram. -/
def zeros (_ : FlowKey) : List UInt8 := List.replicate 112 0

theorem length_zeros_le (k : FlowKey) : (zeros k).length ≤ 65515 := by
  rw [zeros, List.length_replicate]
  omega

def udpHeader : Ipv4Header := { source := 0x0a000001, destination := 0x0a000102, identification := 7, protocol := 17 }

/-- The two parts for a link of 76 bytes, and the first part of the last one for a link of 68 bytes. -/
def lowPart : Ipv4Packet := fragmentAt false (zeros udpHeader.flow) udpHeader 0 56 true

def highPart : Ipv4Packet := fragmentAt false (zeros udpHeader.flow) udpHeader 56 56 false

def highPartStart : Ipv4Packet := fragmentAt false highPart.1 highPart.2 0 48 true

/-- The end of the datagram, the same again but for its last bytes, and the beginning. -/
def cutTwice : List Ipv4Packet := [highPart, highPartStart, lowPart]

theorem fragment_cutTwice : ∀ g ∈ cutTwice, Fragment zeros g := by
  have hwhole : Fragment zeros (zeros udpHeader.flow, udpHeader) := .whole udpHeader rfl rfl
  have hcut : doFragmentation false 113 (zeros udpHeader.flow, udpHeader) 76 = some [lowPart, highPart] := by decide
  have hcut' : doFragmentation false 57 highPart 68 =
      some [highPartStart, fragmentAt false highPart.1 highPart.2 48 8 false] := by decide
  have hhigh : Fragment zeros highPart := .cut hwhole (by decide) hcut (by simp)
  intro g hg
  rcases List.mem_cons.mp hg with rfl | hg
  · exact hhigh
  rcases List.mem_cons.mp hg with rfl | hg
  · exact .cut hhigh (by decide) hcut' (by simp)
  · rw [List.mem_singleton.mp hg]
    exact .cut hwhole (by decide) hcut (by simp)

theorem run_entire_iff_cutTwice :
    ((∀ l g, l ++ [g] <+: cutTwice → Right zeros l g) ↔ ∀ l g, l ++ [g] <+: cutTwice → EndsOnTop zeros l g) ∧
      ∀ (checksumEnabled : Bool) (mtu : ℕ) (g : Ipv4Packet), 68 ≤ mtu → Fragment zeros g →
        ∃ l, (∀ fuel, g.1.length < fuel → doFragmentation checksumEnabled fuel g mtu = some l) ∧
          (∀ g' ∈ l.dropLast, g'.2.moreFragments = true) ∧ ∀ g' ∈ l, g'.2.moreFragments = true → 8 ∣ g'.1.length :=
  run_entire_iff zeros length_zeros_le cutTwice fragment_cutTwice

theorem received_cutTwice : received zeros [highPart, highPartStart] udpHeader.flow = [highPart, highPartStart] := by
  have hgap : ∀ l : List Ipv4Packet, (∀ g ∈ l, 0 < g.2.fragmentOffset) → ¬ Covered (zeros udpHeader.flow) l := by
    rintro l hl ⟨-, hcover⟩
    obtain ⟨p, hp, hle, -⟩ := hcover 0 le_rfl (by decide)
    obtain ⟨g, hg, rfl⟩ := List.mem_map.mp hp
    exact absurd hle (not_le.mpr (hl g hg))
  have hone := (received_append zeros [] highPart).2 (hgap [highPart] (by decide))
  rw [List.nil_append] at hone
  have hone' : received zeros [highPart] udpHeader.flow = [highPart] := by rw [hone]; rfl
  have htwo := (received_append zeros [highPart] highPartStart).2
    (by rw [show highPartStart.2.flow = udpHeader.flow from rfl, hone']; exact hgap _ (by decide))
  have hflow : highPartStart.2.flow = udpHeader.flow := rfl
  rw [hflow, hone'] at htwo
  exact (congrFun htwo _).trans (update_self _ _ _)

/-- All of the datagram is there, but the flag is that of a part with more behind it. -/
theorem not_run_entire : ¬ ∀ (payload : FlowKey → List UInt8), (∀ k, (payload k).length ≤ 65515) →
    ∀ arrivals : List Ipv4Packet, (∀ g ∈ arrivals, Fragment payload g) →
      ∀ l g, l ++ [g] <+: arrivals → Right payload l g := by
  intro h
  have hright := h zeros length_zeros_le cutTwice fragment_cutTwice
    [highPart, highPartStart] lowPart List.prefix_rfl
  have hanswer : (processFragment (reassembled [highPart, highPartStart]) lowPart).1 = false := by decide
  refine absurd (hright.1.mpr ?_) (by rw [hanswer]; exact Bool.false_ne_true)
  have hflow : lowPart.2.flow = udpHeader.flow := rfl
  rw [hflow, received_cutTwice]
  refine ⟨by simp, fun i _ hi => ?_⟩
  have hi' : i < 112 := hi
  by_cases hlow : i < 56
  · exact ⟨item lowPart, by simp, Nat.zero_le i, hlow⟩
  · exact ⟨item highPart, by simp, not_lt.mp hlow, hi'⟩

end Runs

end Ns3Ndn.Internet
