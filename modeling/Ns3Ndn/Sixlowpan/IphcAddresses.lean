import Ns3Ndn.Sixlowpan.Iphc

/-!
# Compressed addresses

What the receiver makes of the part of an address that was sent.

* `Ipv6Prefix.HostBitsZero`, `BeginsWith`, `Lossless`: which addresses a context is enough for;
* **`decompressStateful_auto_iff`**, **`decompressStateful_iff`**: a stateful address is restored if and only if it is one of them.
-/

namespace Ns3Ndn.Sixlowpan

open BytesLib BitFieldLib Internet

variable {a : Ipv6Address}

/-! ## Without a context -/

theorem getD_slice {n : ℕ} (buf : Vector UInt8 n) {offset count i : ℕ} (hi : i < count) (h : offset + i < n) (d : UInt8) :
    (slice buf offset count).getD i d = buf[offset + i] := by
  rw [List.getD_eq_getElem?_getD, getElem?_slice buf hi h, Option.getD_some]

theorem getElem_of_slice_eq {b : Ipv6Address} {offset count i : ℕ} (hs : slice a offset count = slice b offset count)
    (hi : i < count) (h : offset + i < 16) : a[offset + i] = b[offset + i] := by
  have heq : (slice a offset count)[i]? = (slice b offset count)[i]? := congrArg (fun l => l[i]?) hs
  rw [getElem?_slice a hi h, getElem?_slice b hi h] at heq
  exact Option.some_inj.mp heq

theorem restore128 (a : Ipv6Address) : memcpy Ipv6Address.zeros 0 (slice a 0 16) = a := by
  ext i hi
  rw [getElem_memcpy, if_pos (Nat.zero_le i), getD_slice a (by omega) (by omega)]
  simp

/-- `fe80::ff:fe00:XXXX`. -/
theorem restore16 (hs : slice a 0 14 = slice unicastAddrChecker 0 14) :
    memcpy (memcpy (memcpy Ipv6Address.zeros 14 (slice a 14 2)) 0 [0xfe, 0x80]) 11 [0xff, 0xfe] = a := by
  ext i hi
  by_cases hlow : i < 14
  · have hbyte := getElem_of_slice_eq hs hlow (by omega)
    simp only [Nat.zero_add] at hbyte
    rw [hbyte]
    simp only [getElem_memcpy, unicastAddrChecker, Ipv6Address.linkLocalPrefix]
    interval_cases i <;> simp
  · interval_cases i <;> simp_all [getElem_memcpy, getElem?_slice]

/-- `fe80::XXXX:XXXX:XXXX:XXXX`. -/
theorem restore64 (hs : a.isLinkLocal = true) : memcpy (memcpy Ipv6Address.zeros 8 (slice a 8 8)) 0 [0xfe, 0x80] = a := by
  have heq := of_decide_eq_true hs
  have hff : ∀ b : UInt8, b &&& 0xff = b := by
    intro b
    rw [← UInt8.toNat_inj, UInt8.toNat_and]
    exact (Nat.and_two_pow_sub_one_eq_mod _ 8).trans (Nat.mod_eq_of_lt b.toNat_lt)
  ext i hi
  by_cases hlow : i < 8
  · have hbyte : (Ipv6Address.combinePrefix a (memcpy Ipv6Address.zeros 0 (List.replicate 8 0xff)))[i] =
        Ipv6Address.linkLocalPrefix[i] := by rw [heq]
    have hmask : (memcpy Ipv6Address.zeros 0 (List.replicate 8 0xff))[i] = 0xff := by
      rw [getElem_memcpy]
      interval_cases i <;> rfl
    rw [Ipv6Address.getElem_combinePrefix, hmask, hff] at hbyte
    rw [hbyte]
    simp only [getElem_memcpy, Ipv6Address.linkLocalPrefix]
    interval_cases i <;> simp
  · interval_cases i <;> simp_all [getElem_memcpy, getElem?_slice]

/-- `ff02::00XX`. -/
theorem restoreGroup8 (hs : slice a 0 15 = slice multicastAddrChecker 0 15) :
    memcpy (memcpy Ipv6Address.zeros 0 [0xff, 0x02]) 15 (slice a 15 1) = a := by
  ext i hi
  by_cases hlow : i < 15
  · have hbyte := getElem_of_slice_eq hs hlow (by omega)
    simp only [Nat.zero_add] at hbyte
    rw [hbyte]
    simp only [getElem_memcpy, multicastAddrChecker]
    interval_cases i <;> simp
  · obtain rfl : i = 15 := by omega
    simp [getElem_memcpy, getElem?_slice]

theorem zeros_of_slice_eq {n d : ℕ} (hs : slice a 2 n = slice multicastAddrChecker 2 n) (hn : n ≤ 13) (hd : d < n)
    (hlt : 2 + d < 16) : a[2 + d] = 0 := by
  rw [getElem_of_slice_eq hs hd (by omega)]
  have hd' : d < 13 := hd.trans_le hn
  simp only [multicastAddrChecker, getElem_memcpy]
  interval_cases d <;> simp [Ipv6Address.zeros]

/-- `ffXX::00XX:XXXX`. -/
theorem restoreGroup32 (ha : a.isMulticast = true) (hs : slice a 2 11 = slice multicastAddrChecker 2 11) :
    memcpy (memcpy (memcpy Ipv6Address.zeros 0 [0xff]) 1 (slice a 1 1)) 13 (slice a 13 3) = a := by
  have hff : a[0] = 0xff := of_decide_eq_true ha
  have hzero := fun d (hd : d < 11) => zeros_of_slice_eq hs (by decide) hd (by omega)
  ext i hi
  by_cases hlow : 2 ≤ i ∧ i < 13
  · obtain ⟨d, rfl⟩ := Nat.exists_eq_add_of_le hlow.1
    rw [hzero d (by omega), getElem_memcpy, if_neg (by omega), getElem_memcpy, if_pos (by omega), List.getD_eq_default,
      getElem_memcpy]
    · simp [Ipv6Address.zeros]
    · rw [length_slice _ (by decide)]
      omega
  · have hcases : i = 0 ∨ i = 1 ∨ i = 13 ∨ i = 14 ∨ i = 15 := by omega
    rcases hcases with rfl | rfl | rfl | rfl | rfl <;> simp [getElem_memcpy, getElem?_slice, hff]

/-- `ffXX::00XX:XXXX:XXXX`. -/
theorem restoreGroup48 (ha : a.isMulticast = true) (hs : slice a 2 9 = slice multicastAddrChecker 2 9) :
    memcpy (memcpy (memcpy Ipv6Address.zeros 0 [0xff]) 1 (slice a 1 1)) 11 (slice a 11 5) = a := by
  have hff : a[0] = 0xff := of_decide_eq_true ha
  have hzero := fun d (hd : d < 9) => zeros_of_slice_eq hs (by decide) hd (by omega)
  ext i hi
  by_cases hlow : 2 ≤ i ∧ i < 11
  · obtain ⟨d, rfl⟩ := Nat.exists_eq_add_of_le hlow.1
    rw [hzero d (by omega), getElem_memcpy, if_neg (by omega), getElem_memcpy, if_pos (by omega), List.getD_eq_default,
      getElem_memcpy]
    · simp [Ipv6Address.zeros]
    · rw [length_slice _ (by decide)]
      omega
  · have hcases : i = 0 ∨ i = 1 ∨ i = 11 ∨ i = 12 ∨ i = 13 ∨ i = 14 ∨ i = 15 := by omega
    rcases hcases with rfl | rfl | rfl | rfl | rfl | rfl | rfl <;> simp [getElem_memcpy, getElem?_slice, hff]

/-- `ffXX:XXLL:PPPP:PPPP:PPPP:PPPP:XXXX:XXXX`. -/
theorem restoreStatefulGroup (ha : a.isMulticast = true) {third : UInt8} (hthird : a[3]? = some third) :
    memcpy (memcpy (memcpy (memcpy (memcpy Ipv6Address.zeros 0 [0xff]) 1 (slice a 1 2)) 3 [third]) 4 (slice a 4 8)) 12 (slice a 12 4) =
      a := by
  have hff : a[0] = 0xff := of_decide_eq_true ha
  obtain rfl : a[3] = third := by simpa using hthird
  ext i hi
  interval_cases i <;> simp [getElem_memcpy, getElem?_slice, hff]

/-! ## With a context -/

/-- The bits of a byte after a prefix that ends in it. -/
def hostMask (length : ℕ) : UInt8 := UInt8.ofNat (1 <<< (8 - length % 8) - 1)

def cleanMask (length : ℕ) : UInt8 := UInt8.ofNat (1 <<< (length % 8) - 1)

structure HostBitsZero (pref : Ipv6Prefix) : Prop where
  length : pref.length ≤ 128
  last : ∀ (i : ℕ) (hi : i < 16), i = pref.length / 8 → pref.bytes[i] &&& hostMask pref.length = 0
  beyond : ∀ (i : ℕ) (hi : i < 16), pref.length / 8 < i → pref.bytes[i] = 0

structure BeginsWith (a : Ipv6Address) (pref : Ipv6Prefix) : Prop where
  bytes : ∀ (i : ℕ) (hi : i < 16), i < pref.length / 8 → a[i] = pref.bytes[i]
  last : ∀ (i : ℕ) (hi : i < 16), i = pref.length / 8 → a[i] &&& ~~~hostMask pref.length = pref.bytes[i]

structure NoGap (a : Ipv6Address) (pref : Ipv6Prefix) : Prop where
  last : ∀ (i : ℕ) (hi : i < 16), i < 8 → i = pref.length / 8 → a[i] &&& hostMask pref.length = 0
  beyond : ∀ (i : ℕ) (hi : i < 16), i < 8 → pref.length / 8 < i → a[i] = 0

/-- Where the prefix ends inside a byte of the lower half, the bits of the address that the mask of `CleanPrefix` takes away by mistake are
zero. -/
def NotCleaned (a : Ipv6Address) (pref : Ipv6Prefix) : Prop :=
  ∀ (i : ℕ) (hi : i < 16), 8 ≤ i → i = pref.length / 8 → pref.length % 8 ≠ 0 →
    a[i] &&& hostMask pref.length &&& ~~~cleanMask pref.length = 0

/-- **A context is enough for an address.** -/
def Lossless (link : LinkAddress) (pref : Ipv6Prefix) (a : Ipv6Address) : Prop :=
  BeginsWith a pref ∧ if Ipv6Address.makeAutoconfiguredAddress link pref.bytes = a then 9 ≤ pref.length
    else NoGap a pref ∧ NotCleaned a pref

section Context

variable {pref : Ipv6Prefix} {link : LinkAddress} {part : Vector UInt8 16}

variable {i : ℕ}

theorem getElem_cleanPrefix (a : Ipv6Address) (pref : Ipv6Prefix) (hi : i < 16) : (cleanPrefix a pref)[i] =
    if i < pref.length / 8 then 0 else if i = pref.length / 8 ∧ pref.length % 8 ≠ 0 then a[i] &&& cleanMask pref.length else a[i] := by
  simp [cleanPrefix, cleanMask]

theorem getElem_overlayPrefix (pref : Ipv6Prefix) (a : Ipv6Address) (hi : i < 16) : (overlayPrefix pref a)[i] =
    if i < pref.length / 8 then pref.bytes[i]
    else if i = pref.length / 8 ∧ pref.length % 8 ≠ 0 then
      (pref.bytes[i] &&& ~~~hostMask pref.length) ||| (a[i] &&& hostMask pref.length) else a[i] := by
  have hget : pref.bytes[i]? = some pref.bytes[i] := Vector.getElem?_eq_getElem hi
  simp [overlayPrefix, hostMask, hget]

theorem overlay_byte_iff {p b m k : UInt8} (hp : p &&& m = 0) :
    (p &&& ~~~m) ||| ((b &&& k) &&& m) = b ↔ b &&& ~~~m = p ∧ b &&& m &&& ~~~k = 0 := by
  have hp' : p.toBitVec &&& m.toBitVec = 0 := by
    rw [← UInt8.toBitVec_and, hp]
    rfl
  simpa [← UInt8.toBitVec_inj] using overlay_bits_iff (b := b.toBitVec) (k := k.toBitVec) hp'

theorem and_ff (b : UInt8) : b &&& 0xff = b := by
  rw [← UInt8.toNat_inj, UInt8.toNat_and]
  exact (Nat.and_two_pow_sub_one_eq_mod _ 8).trans (Nat.mod_eq_of_lt b.toNat_lt)

theorem hostMask_eq (h : pref.length % 8 = 0) : hostMask pref.length = 0xff := by
  rw [hostMask, h]
  rfl

structure RestoredByte (a : Ipv6Address) (pref : Ipv6Prefix) (i : ℕ) (hi : i < 16) : Prop where
  bytes : i < pref.length / 8 → a[i] = pref.bytes[i]
  last : i = pref.length / 8 → a[i] &&& ~~~hostMask pref.length = pref.bytes[i]
  gapLast : i < 8 → i = pref.length / 8 → a[i] &&& hostMask pref.length = 0
  gapBeyond : i < 8 → pref.length / 8 < i → a[i] = 0
  cleaned : 8 ≤ i → i = pref.length / 8 → pref.length % 8 ≠ 0 → a[i] &&& hostMask pref.length &&& ~~~cleanMask pref.length = 0

theorem restoredByte_iff (hh : HostBitsZero pref) {base : Ipv6Address}
    (hbase : ∀ (i : ℕ) (hi : i < 16), base[i] = if i < 8 then 0 else (cleanPrefix a pref)[i]) (hi : i < 16) :
    (overlayPrefix pref base)[i] = a[i] ↔ RestoredByte a pref i hi := by
  rw [getElem_overlayPrefix, hbase i hi, getElem_cleanPrefix]
  rcases lt_trichotomy i (pref.length / 8) with hlt | heq | hgt
  · -- a byte of the prefix
    rw [if_pos hlt]
    exact ⟨fun h => ⟨fun _ => h.symm, fun h' => absurd h' hlt.ne, fun _ h' => absurd h' hlt.ne, fun _ h' => absurd h' hlt.not_gt,
      fun _ h' => absurd h' hlt.ne⟩, fun h => (h.bytes hlt).symm⟩
  · have hp := hh.last i hi heq
    have hnlt : ¬ i < pref.length / 8 := by omega
    rw [if_neg hnlt, if_neg hnlt]
    by_cases hb : pref.length % 8 ≠ 0
    · -- the byte in which the prefix ends
      have hc : i = pref.length / 8 ∧ pref.length % 8 ≠ 0 := ⟨heq, hb⟩
      rw [if_pos hc, if_pos hc]
      by_cases h8 : i < 8
      · have hzero : ∀ m : UInt8, (0 : UInt8) &&& m = (a[i] &&& 0) &&& m := fun m => by rw [UInt8.and_zero]
        have hnot : ∀ m : UInt8, m &&& ~~~(0 : UInt8) = m := and_ff
        rw [if_pos h8, hzero, overlay_byte_iff hp, hnot]
        exact ⟨fun h => ⟨fun h' => absurd h' hnlt, fun _ => h.1, fun _ _ => h.2, fun _ h' => absurd h' (by omega), fun h' => by omega⟩,
          fun h => ⟨h.last heq, h.gapLast h8 heq⟩⟩
      · rw [if_neg h8, overlay_byte_iff hp]
        exact ⟨fun h => ⟨fun h' => absurd h' hnlt, fun _ => h.1, fun h' => absurd h' h8, fun h' => absurd h' h8, fun _ _ _ => h.2⟩,
          fun h => ⟨h.last heq, h.cleaned (by omega) heq hb⟩⟩
    · -- the prefix ends before this byte
      have hmask := hostMask_eq (not_not.mp hb)
      have hpz : pref.bytes[i] = 0 := by
        rw [hmask, and_ff] at hp
        exact hp
      have hnone : ∀ c : UInt8, c &&& ~~~(0xff : UInt8) = 0 := fun c => UInt8.and_zero
      have hc : ¬ (i = pref.length / 8 ∧ pref.length % 8 ≠ 0) := fun h => hb h.2
      rw [if_neg hc, if_neg hc]
      by_cases h8 : i < 8
      · rw [if_pos h8]
        refine ⟨fun h => ⟨fun h' => absurd h' hnlt, fun _ => ?_, fun _ _ => ?_, fun _ h' => by omega, fun h' => by omega⟩, fun h => ?_⟩
        · rw [hmask, hnone, hpz]
        · rw [← h, UInt8.zero_and]
        · have := h.gapLast h8 heq
          rw [hmask, and_ff] at this
          exact this.symm
      · rw [if_neg h8]
        refine ⟨fun _ => ⟨fun h' => absurd h' hnlt, fun _ => ?_, fun h' => absurd h' h8, fun h' => absurd h' h8,
          fun _ _ h' => absurd h' hb⟩, fun _ => rfl⟩
        rw [hmask, hnone, hpz]
  · -- a byte after the prefix
    have hnlt : ¬ i < pref.length / 8 := by omega
    have hne : ¬ (i = pref.length / 8 ∧ pref.length % 8 ≠ 0) := fun h => by omega
    rw [if_neg hnlt, if_neg hne, if_neg hnlt, if_neg hne]
    by_cases h8 : i < 8
    · rw [if_pos h8]
      exact ⟨fun h => ⟨fun h' => absurd h' hnlt, fun h' => absurd h' hgt.ne', fun _ h' => absurd h' hgt.ne', fun _ _ => h.symm,
        fun h' => by omega⟩, fun h => (h.gapBeyond h8 hgt).symm⟩
    · rw [if_neg h8]
      exact ⟨fun _ => ⟨fun h' => absurd h' hnlt, fun h' => absurd h' hgt.ne', fun h' => absurd h' h8, fun h' => absurd h' h8,
        fun _ h' => absurd h' hgt.ne'⟩, fun _ => rfl⟩

/-- **What is left of an address after its prefix**, written under the prefix again. -/
theorem overlayPrefix_iff (hh : HostBitsZero pref) {base : Ipv6Address}
    (hbase : ∀ (i : ℕ) (hi : i < 16), base[i] = if i < 8 then 0 else (cleanPrefix a pref)[i]) :
    overlayPrefix pref base = a ↔ BeginsWith a pref ∧ NoGap a pref ∧ NotCleaned a pref := by
  constructor
  · intro heq
    have hbyte : ∀ (i : ℕ) (hi : i < 16), RestoredByte a pref i hi := fun i hi =>
      (restoredByte_iff hh hbase hi).mp (by rw [heq])
    exact ⟨⟨fun i hi => (hbyte i hi).bytes, fun i hi => (hbyte i hi).last⟩,
      ⟨fun i hi => (hbyte i hi).gapLast, fun i hi => (hbyte i hi).gapBeyond⟩, fun i hi => (hbyte i hi).cleaned⟩
  · rintro ⟨hbegins, hgap, hcleaned⟩
    apply Vector.ext
    intro i hi
    exact (restoredByte_iff hh hbase hi).mpr ⟨hbegins.bytes i hi, hbegins.last i hi, hgap.last i hi, hgap.beyond i hi, hcleaned i hi⟩

theorem decompressStateful_iff (hh : HostBitsZero pref) {mode : HeaderCompression}
    (hmode : mode = .compr16 ∧ isShortIid (cleanPrefix a pref) = true ∧ slice part 0 2 = slice (cleanPrefix a pref) 14 2 ∨
      mode = .compr64 ∧ slice part 0 8 = slice (cleanPrefix a pref) 8 8) :
    decompressStateful link pref mode part = a ↔ BeginsWith a pref ∧ NoGap a pref ∧ NotCleaned a pref := by
  rcases hmode with ⟨rfl, hshort, hpart⟩ | ⟨rfl, hpart⟩
  · refine overlayPrefix_iff hh fun i hi => ?_
    have hiid := of_decide_eq_true hshort
    have hbyte : ∀ (d : ℕ) (hd : d < 6) (hlt : 8 + d < 16),
        (cleanPrefix a pref)[8 + d] = [0x00, 0x00, 0x00, 0xff, 0xfe, 0x00].getD d 0 := by
      intro d hd _
      rw [← hiid, getD_slice _ hd (by omega)]
    dsimp only
    rw [hpart]
    by_cases hlow : i < 14
    · by_cases h8 : i < 8
      · rw [if_pos h8]
        simp only [getElem_memcpy, Ipv6Address.zeros]
        interval_cases i <;> simp
      · obtain ⟨d, rfl⟩ := Nat.exists_eq_add_of_le (Nat.le_of_not_lt h8)
        have hd : d < 6 := by omega
        rw [if_neg h8, hbyte d hd (by omega)]
        simp only [getElem_memcpy, Ipv6Address.zeros]
        interval_cases d <;> simp
    · have hcases : i = 14 ∨ i = 15 := by omega
      rcases hcases with rfl | rfl <;> simp [getElem_memcpy, getElem?_slice]
  · refine overlayPrefix_iff hh fun i hi => ?_
    dsimp only
    rw [hpart, getElem_memcpy]
    by_cases h8 : i < 8
    · rw [if_pos h8, if_neg (by omega)]
      simp [Ipv6Address.zeros]
    · rw [if_neg h8, if_pos (by omega), getD_slice _ (by omega) (by omega)]
      congr 1
      omega

theorem getElem_linkLocalPrefix (hi : i < 16) (hpos : 2 ≤ i) : Ipv6Address.linkLocalPrefix[i] = 0 := by
  simp only [Ipv6Address.linkLocalPrefix, getElem_memcpy]
  interval_cases i <;> simp [Ipv6Address.zeros]

theorem HostBitsZero.and_not (hh : HostBitsZero pref) (hi : i < 16) (heq : i = pref.length / 8) :
    pref.bytes[i] &&& ~~~hostMask pref.length = pref.bytes[i] := by
  have hp : pref.bytes[i].toBitVec &&& (hostMask pref.length).toBitVec = 0 := by
    rw [← UInt8.toBitVec_and, hh.last i hi heq]
    rfl
  simpa [← UInt8.toBitVec_inj] using and_not_bits hp

theorem overlay_byte_self {p b m : UInt8} (hp : p &&& m = 0) : (p &&& ~~~m) ||| (b &&& m) = b ↔ b &&& ~~~m = p := by
  have hself := overlay_byte_iff (b := b) (k := 0xff) hp
  have hnone : ∀ c : UInt8, c &&& ~~~(0xff : UInt8) = 0 := fun c => UInt8.and_zero
  rw [and_ff, hnone] at hself
  rw [hself]
  exact and_iff_left rfl

theorem linkLocalPrefix_and_hostMask (hi : i < 16) (hpos : 1 ≤ i) (hb : pref.length % 8 ≠ 0) :
    Ipv6Address.linkLocalPrefix[i] &&& hostMask pref.length = 0 := by
  by_cases h2 : 2 ≤ i
  · rw [getElem_linkLocalPrefix hi h2, UInt8.zero_and]
  · obtain rfl : i = 1 := by omega
    have hbyte : Ipv6Address.linkLocalPrefix[1] = 0x80 := by
      simp only [Ipv6Address.linkLocalPrefix, getElem_memcpy]
      simp
    have hlt : pref.length % 8 < 8 := Nat.mod_lt _ (by decide)
    rw [hbyte, hostMask]
    interval_cases pref.length % 8
    · exact absurd rfl hb
    all_goals decide

theorem autoconfigured_byte (hauto : Ipv6Address.makeAutoconfiguredAddress link pref.bytes = a) (hi : i < 16) :
    a[i] = if i < 8 then pref.bytes[i] else (Ipv6Address.makeAutoconfiguredLinkLocalAddress link)[i] := by
  rw [← Ipv6Address.getElem_makeAutoconfiguredAddress link pref.bytes hi]
  simp only [hauto]

theorem decompressStateful_auto_iff (hh : HostBitsZero pref) (hauto : Ipv6Address.makeAutoconfiguredAddress link pref.bytes = a) :
    decompressStateful link pref .compr0 part = a ↔ BeginsWith a pref ∧ 9 ≤ pref.length := by
  have ha := fun (i : ℕ) (hi : i < 16) => autoconfigured_byte hauto hi
  have hll := fun (i : ℕ) (hi : i < 8) => Ipv6Address.getElem_makeAutoconfiguredLinkLocalAddress link hi
  have hzero : pref.length % 8 = 0 → ∀ (i : ℕ) (hi : i < 16), i = pref.length / 8 → pref.bytes[i] = 0 := by
    intro hb i hi heq
    have := hh.last i hi heq
    rwa [hostMask_eq hb, and_ff] at this
  constructor
  · intro heq
    have hbyte : ∀ (i : ℕ) (hi : i < 16), (overlayPrefix pref (Ipv6Address.makeAutoconfiguredLinkLocalAddress link))[i] = a[i] := by
      intro i hi
      have : overlayPrefix pref (Ipv6Address.makeAutoconfiguredLinkLocalAddress link) = a := heq
      rw [this]
    refine ⟨⟨fun i hi hlt => ?_, fun i hi hlast => ?_⟩, ?_⟩
    · rw [← hbyte i hi, getElem_overlayPrefix, if_pos hlt]
    · have hnlt : ¬ i < pref.length / 8 := by omega
      by_cases hb : pref.length % 8 ≠ 0
      · by_cases h8 : i < 8
        · rw [ha i hi, if_pos h8, hh.and_not hi hlast]
        · have hc : i = pref.length / 8 ∧ pref.length % 8 ≠ 0 := ⟨hlast, hb⟩
          have := hbyte i hi
          rw [getElem_overlayPrefix, if_neg hnlt, if_pos hc, ha i hi, if_neg h8] at this
          rw [ha i hi, if_neg h8]
          exact (overlay_byte_self (hh.last i hi hlast)).mp this
      · have hnone : ∀ c : UInt8, c &&& ~~~(0xff : UInt8) = 0 := fun c => UInt8.and_zero
        rw [hostMask_eq (not_not.mp hb), hnone, hzero (not_not.mp hb) i hi hlast]
    · -- with a shorter prefix, a bit of the link-local one is left in the second byte
      by_contra hlen
      have h80 := hbyte 1 (by decide)
      have hnlt : ¬ 1 < pref.length / 8 := by omega
      have hc : ¬ (1 = pref.length / 8 ∧ pref.length % 8 ≠ 0) := by omega
      have hp : pref.bytes[1] = 0 := by
        by_cases hB : pref.length / 8 < 1
        · exact hh.beyond 1 (by decide) hB
        · exact hzero (by omega) 1 (by decide) (by omega)
      rw [getElem_overlayPrefix, if_neg hnlt, if_neg hc, ha 1 (by decide), if_pos (by decide), hp, hll 1 (by decide)] at h80
      simp only [Ipv6Address.linkLocalPrefix, getElem_memcpy] at h80
      simp at h80
  · rintro ⟨hbegins, hlen⟩
    apply Vector.ext
    intro i hi
    show (overlayPrefix pref (Ipv6Address.makeAutoconfiguredLinkLocalAddress link))[i] = a[i]
    rw [getElem_overlayPrefix]
    rcases lt_trichotomy i (pref.length / 8) with hlt | heq | hgt
    · rw [if_pos hlt, hbegins.bytes i hi hlt]
    · have hnlt : ¬ i < pref.length / 8 := by omega
      rw [if_neg hnlt]
      by_cases hb : pref.length % 8 ≠ 0
      · have hc : i = pref.length / 8 ∧ pref.length % 8 ≠ 0 := ⟨heq, hb⟩
        have hor : ∀ c : UInt8, c ||| 0 = c := fun c => UInt8.or_zero
        rw [if_pos hc]
        by_cases h8 : i < 8
        · rw [hll i h8, linkLocalPrefix_and_hostMask hi (by omega) hb, hor, ha i hi, if_pos h8, hh.and_not hi heq]
        · have hlast := hbegins.last i hi heq
          rw [ha i hi, if_neg h8] at hlast ⊢
          exact (overlay_byte_self (hh.last i hi heq)).mpr hlast
      · have hc : ¬ (i = pref.length / 8 ∧ pref.length % 8 ≠ 0) := fun h => hb h.2
        rw [if_neg hc, ha i hi]
        by_cases h8 : i < 8
        · rw [if_pos h8, hll i h8, getElem_linkLocalPrefix hi (by omega), hzero (not_not.mp hb) i hi heq]
        · rw [if_neg h8]
    · have hnlt : ¬ i < pref.length / 8 := by omega
      have hc : ¬ (i = pref.length / 8 ∧ pref.length % 8 ≠ 0) := by omega
      rw [if_neg hnlt, if_neg hc, ha i hi]
      by_cases h8 : i < 8
      · rw [if_pos h8, hll i h8, getElem_linkLocalPrefix hi (by omega), hh.beyond i hi hgt]
      · rw [if_neg h8]

end Context

end Ns3Ndn.Sixlowpan
