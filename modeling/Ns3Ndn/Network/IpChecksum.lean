import Ns3Ndn.Lib.Bytes
import Ns3Ndn.Lib.OnesComplement

/-!
# The internet checksum

`Buffer::Iterator::CalculateIpChecksum` of `network/model/buffer.cc`: the bytes are summed in words with the less significant byte
first, into 32 bits, and the carries are folded back afterwards. The result is written in the same order, so that on the wire it
is the checksum of the words in network order.

* `rfc1071`: the checksum of RFC 1071, with ones' complement sums of words in network order;
* **`calculateIpChecksum_spec`**: the result, what it checks, and how it is made of two parts.
-/

namespace Ns3Ndn.Network

open BytesLib OnesLib

def writeU16 (bytes : List UInt8) (offset : ℕ) (data : UInt16) : List UInt8 :=
  (bytes.set offset (data &&& 0xff).toUInt8).set (offset + 1) ((data >>> 8) &&& 0xff).toUInt8

/-- The loop of `ReadU16`. -/
def sumWords : ℕ → UInt32 → List UInt8 → Option (UInt32 × List UInt8)
  | 0, sum, bytes => some (sum, bytes)
  | n + 1, sum, bytes => (readLe16 bytes).bind fun (word, rest) => sumWords n (sum + UInt32.ofNat word) rest

/-- The sum before its carries are folded back. -/
def ipSum (size : ℕ) (initialChecksum : UInt32) (bytes : List UInt8) : Option UInt32 :=
  (sumWords (size / 2) initialChecksum bytes).bind fun (sum, rest) =>
    if size &&& 1 ≠ 0 then (readU8 rest).map fun (b, _) => sum + b.toUInt32 else some sum

theorem toNat_carried (sum : UInt32) : ((sum &&& (0xffff : UInt32)) + (sum >>> 16)).toNat = sum.toNat % 65536 + sum.toNat / 65536 := by
  have hlt := sum.toNat_lt
  have hmask : (sum &&& 0xffff).toNat = sum.toNat % 65536 := Nat.and_two_pow_sub_one_eq_mod sum.toNat 16
  have hshift : (sum >>> 16).toNat = sum.toNat / 65536 := Nat.shiftRight_eq_div_pow sum.toNat 16
  rw [UInt32.toNat_add, hmask, hshift, Nat.mod_eq_of_lt]
  omega

theorem shiftRight_ne_zero {sum : UInt32} : sum >>> 16 ≠ 0 ↔ 65536 ≤ sum.toNat := by
  have hshift : (sum >>> 16).toNat = sum.toNat / 65536 := Nat.shiftRight_eq_div_pow sum.toNat 16
  rw [ne_eq, ← UInt32.toNat_inj, hshift]
  show ¬ _ = 0 ↔ _
  omega

def foldCarries (sum : UInt32) : UInt32 :=
  if sum >>> 16 ≠ 0 then foldCarries ((sum &&& (0xffff : UInt32)) + (sum >>> 16)) else sum
termination_by sum.toNat
decreasing_by
  rename_i h
  rw [shiftRight_ne_zero] at h
  rw [toNat_carried]
  omega

def calculateIpChecksum (size : ℕ) (initialChecksum : UInt32) (bytes : List UInt8) : Option UInt16 :=
  (ipSum size initialChecksum bytes).map fun sum => (~~~ foldCarries sum).toUInt16

/-- Words in network order, an odd byte padded with zero. -/
def beWords : List UInt8 → List ℕ
  | a :: b :: rest => (256 * a.toNat + b.toNat) :: beWords rest
  | [a] => [256 * a.toNat]
  | [] => []

/-- The complement of the ones' complement sum. -/
def rfc1071 (bytes : List UInt8) : ℕ := 0xffff - (beWords bytes).foldl (add 0xffff) 0

/-- Words with the less significant byte first. -/
def leWords : List UInt8 → List ℕ
  | a :: b :: rest => (a.toNat + 256 * b.toNat) :: leWords rest
  | [a] => [a.toNat]
  | [] => []

/-! ## The sum -/

section Sum

variable {bytes : List UInt8} {n size offset : ℕ} {sum c : UInt32}

theorem readLe16_cons (a b : UInt8) (rest : List UInt8) : readLe16 (a :: b :: rest) = some (a.toNat + 256 * b.toNat, rest) := by
  have ha := a.toNat_lt
  rw [readLe16, Nat.or_comm, ← Nat.shiftLeft_add_eq_or_of_lt ha, Nat.shiftLeft_eq, Nat.add_comm, Nat.mul_comm]

theorem sum_leWords_le (bytes : List UInt8) : (leWords bytes).sum ≤ 65535 * ((bytes.length + 1) / 2) := by
  induction bytes using leWords.induct with
  | case1 a b rest ih =>
    have ha := a.toNat_lt
    have hb := b.toNat_lt
    rw [leWords, List.sum_cons, List.length_cons, List.length_cons]
    omega
  | case2 a =>
    have ha := a.toNat_lt
    rw [leWords, List.sum_singleton, List.length_singleton]
    omega
  | case3 => rfl

theorem sum_leWords_append {p : List UInt8} (hp : 2 ∣ p.length) (bytes : List UInt8) :
    (leWords (p ++ bytes)).sum = (leWords p).sum + (leWords bytes).sum := by
  induction p using leWords.induct with
  | case1 a b rest ih =>
    rw [List.length_cons, List.length_cons] at hp
    rw [List.cons_append, List.cons_append, leWords, leWords, List.sum_cons, List.sum_cons, ih (by omega), Nat.add_assoc _ _ (leWords bytes).sum]
  | case2 a =>
    rw [List.length_singleton] at hp
    omega
  | case3 => rw [List.nil_append, leWords, List.sum_nil, Nat.zero_add]

theorem sumWords_eq (sum : UInt32) {p : List UInt8} (hp : p.length = 2 * n) (hbound : sum.toNat + (leWords p).sum < 2 ^ 32) (rest : List UInt8) :
    ∃ s, sumWords n sum (p ++ rest) = some (s, rest) ∧ s.toNat = sum.toNat + (leWords p).sum := by
  induction n generalizing p sum with
  | zero =>
    obtain rfl := List.eq_nil_of_length_eq_zero hp
    exact ⟨sum, rfl, rfl⟩
  | succ n ih =>
    match p, hp with
    | a :: b :: p, hp =>
      rw [List.length_cons, List.length_cons] at hp
      rw [leWords, List.sum_cons] at hbound ⊢
      have hword : (sum + UInt32.ofNat (a.toNat + 256 * b.toNat)).toNat = sum.toNat + (a.toNat + 256 * b.toNat) := by
        rw [UInt32.toNat_add, UInt32.toNat_ofNat', Nat.add_mod_mod, Nat.mod_eq_of_lt (by omega)]
      obtain ⟨s, hs, hs'⟩ := ih (sum + UInt32.ofNat (a.toNat + 256 * b.toNat)) (p := p) (by omega) (by omega)
      refine ⟨s, ?_, by omega⟩
      rw [List.cons_append, List.cons_append, sumWords, readLe16_cons]
      exact hs

/-- **The sum is exact**: nothing is lost in 32 bits. -/
theorem ipSum_eq (hbound : sum.toNat + (leWords bytes).sum < 2 ^ 32) (rest : List UInt8) :
    ∃ s, ipSum bytes.length sum (bytes ++ rest) = some s ∧ s.toNat = sum.toNat + (leWords bytes).sum := by
  have hsplit := List.take_append_drop (2 * (bytes.length / 2)) bytes
  have htake : (bytes.take (2 * (bytes.length / 2))).length = 2 * (bytes.length / 2) := by
    rw [List.length_take]
    omega
  have hdrop : (bytes.drop (2 * (bytes.length / 2))).length = bytes.length % 2 := by
    rw [List.length_drop]
    omega
  generalize bytes.take (2 * (bytes.length / 2)) = p at *
  generalize bytes.drop (2 * (bytes.length / 2)) = last at *
  have hsum := sum_leWords_append (Dvd.intro _ htake.symm) last
  rw [hsplit] at hsum
  obtain ⟨s, hs, hs'⟩ := sumWords_eq sum htake (by omega) (last ++ rest)
  rw [← List.append_assoc, hsplit] at hs
  rw [ipSum, hs, Option.bind_some, Nat.and_one_is_mod, ← hdrop]
  match last, hdrop with
  | [], _ => exact ⟨s, rfl, by rw [hs', hsum]; rfl⟩
  | [b], _ =>
    have hb := b.toNat_lt
    have hword : (leWords [b]).sum = b.toNat := List.sum_singleton
    refine ⟨s + b.toUInt32, rfl, ?_⟩
    rw [UInt32.toNat_add, UInt8.toNat_toUInt32, hs', hsum, hword, Nat.add_assoc, Nat.mod_eq_of_lt (by omega)]
  | _ :: _ :: last, hdrop =>
    rw [List.length_cons, List.length_cons] at hdrop
    omega

theorem toNat_foldCarries (sum : UInt32) : (foldCarries sum).toNat = rep 0xffff sum.toNat := by
  induction sum using foldCarries.induct with
  | case1 sum hcarry ih =>
    rw [foldCarries, if_pos hcarry, ih, toNat_carried]
    exact rep_carry 0xffff sum.toNat
  | case2 sum hcarry =>
    rw [shiftRight_ne_zero] at hcarry
    rw [foldCarries, if_neg (mt shiftRight_ne_zero.mp hcarry), rep_eq_self (by omega)]

theorem calculateIpChecksum_eq (hbound : sum.toNat + (leWords bytes).sum < 2 ^ 32) (rest : List UInt8) :
    ∃ c, calculateIpChecksum bytes.length sum (bytes ++ rest) = some c ∧
      c.toNat = 0xffff - rep 0xffff (sum.toNat + (leWords bytes).sum) := by
  obtain ⟨s, hs, hs'⟩ := ipSum_eq hbound rest
  have hle := rep_le (by decide : 0 < 0xffff) s.toNat
  have hsize : UInt32.size = 2 ^ 32 := rfl
  refine ⟨_, by rw [calculateIpChecksum, hs]; rfl, ?_⟩
  rw [UInt32.toNat_toUInt16, UInt32.toNat_not, toNat_foldCarries, ← hs', hsize]
  omega

/-! ## The words in network order -/

theorem exists_swap_sum (bytes : List UInt8) : ∃ k, 256 * (leWords bytes).sum = (beWords bytes).sum + k * 0xffff := by
  induction bytes using leWords.induct with
  | case1 a b rest ih =>
    obtain ⟨k, hk⟩ := ih
    refine ⟨k + b.toNat, ?_⟩
    rw [leWords, beWords, List.sum_cons, List.sum_cons]
    omega
  | case2 a => exact ⟨0, rfl⟩
  | case3 => exact ⟨0, rfl⟩

theorem sum_beWords_eq_zero (h : (beWords bytes).sum = 0) : (leWords bytes).sum = 0 := by
  induction bytes using leWords.induct with
  | case1 a b rest ih =>
    rw [beWords, List.sum_cons] at h
    have hrest := ih (by omega)
    rw [leWords, List.sum_cons]
    omega
  | case2 a =>
    rw [beWords, List.sum_singleton] at h
    rw [leWords, List.sum_singleton]
    omega
  | case3 => rfl

theorem beWords_le (bytes : List UInt8) : ∀ x ∈ beWords bytes, x ≤ 0xffff := by
  induction bytes using leWords.induct with
  | case1 a b rest ih =>
    have ha := a.toNat_lt
    have hb := b.toNat_lt
    rw [beWords, List.forall_mem_cons]
    exact ⟨by omega, ih⟩
  | case2 a =>
    have ha := a.toNat_lt
    rw [beWords, List.forall_mem_singleton]
    omega
  | case3 => exact fun x hx => absurd hx List.not_mem_nil

/-- **The sums of both orders** are swapped. -/
theorem rfc1071_eq (bytes : List UInt8) : swap 256 (rfc1071 bytes) = 0xffff - rep 0xffff (leWords bytes).sum := by
  have hle := rep_le (by decide : 0 < 0xffff) (leWords bytes).sum
  have hswap : swap 256 (rep 0xffff (leWords bytes).sum) = rep 0xffff (256 * (leWords bytes).sum) :=
    swap_rep (by decide) _
  have hfold : (beWords bytes).foldl (add 0xffff) 0 = rep 0xffff (beWords bytes).sum := by
    have hfold := foldl_add (by decide) (beWords_le bytes) 0
    rwa [Nat.zero_add] at hfold
  have hbe : rep 0xffff (beWords bytes).sum = swap 256 (rep 0xffff (leWords bytes).sum) := by
    rw [hswap]
    obtain ⟨k, hk⟩ := exists_swap_sum bytes
    rcases eq_or_ne (beWords bytes).sum 0 with hzero | hne
    · rw [hzero, sum_beWords_eq_zero hzero]
    · rw [hk, rep_add_mul hne]
  rw [rfc1071, hfold, hbe, swap, swap]
  omega

theorem sum_leWords_writeU16 {bytes : List UInt8} {offset : ℕ} (heven : 2 ∣ offset) (hzero : bytes[offset]? = some 0)
    (hzero' : bytes[offset + 1]? = some 0) (data : UInt16) :
    (leWords (writeU16 bytes offset data)).sum = (leWords bytes).sum + data.toNat := by
  have hlow : (data &&& 0xff).toUInt8.toNat = data.toNat % 256 := by
    rw [UInt16.toNat_toUInt8, UInt16.toNat_and]
    show (data.toNat &&& 2 ^ 8 - 1) % 2 ^ 8 = _
    rw [Nat.and_two_pow_sub_one_eq_mod, Nat.mod_mod]
  have hhigh : ((data >>> 8) &&& 0xff).toUInt8.toNat = data.toNat / 256 := by
    have hlt := data.toNat_lt
    rw [UInt16.toNat_toUInt8, UInt16.toNat_and, UInt16.toNat_shiftRight]
    show (data.toNat >>> 8 &&& 2 ^ 8 - 1) % 2 ^ 8 = _
    rw [Nat.and_two_pow_sub_one_eq_mod, Nat.mod_mod, Nat.shiftRight_eq_div_pow]
    omega
  induction bytes using leWords.induct generalizing offset with
  | case1 a b rest ih =>
    match offset, heven with
    | 0, _ =>
      obtain rfl := Option.some.inj hzero
      obtain rfl := Option.some.inj hzero'
      have hwrite : writeU16 (0 :: 0 :: rest) 0 data = (data &&& 0xff).toUInt8 :: ((data >>> 8) &&& 0xff).toUInt8 :: rest := rfl
      rw [hwrite, leWords, leWords, List.sum_cons, List.sum_cons, hlow, hhigh, UInt8.toNat_zero]
      omega
    | 1, heven => exact absurd heven (by decide)
    | offset + 2, heven =>
      have hwrite : writeU16 (a :: b :: rest) (offset + 2) data = a :: b :: writeU16 rest offset data := rfl
      rw [hwrite, leWords, leWords, List.sum_cons, List.sum_cons, ih (by omega) hzero hzero', Nat.add_assoc _ _ data.toNat]
  | case2 a =>
    rw [List.getElem?_eq_none (by rw [List.length_singleton]; omega)] at hzero'
    cases hzero'
  | case3 => cases hzero

theorem sum_leWords_lt (h : bytes.length ≤ 65535) : (leWords bytes).sum + 0xffff < 2 ^ 32 := by
  have hle := sum_leWords_le bytes
  omega

/-- **The checksum** is that of RFC 1071 with its bytes swapped, is zero over what contains it, and can be chained through its
complement after an even number of bytes. -/
theorem calculateIpChecksum_spec (bytes : List UInt8) (h : bytes.length ≤ 65535) :
    (∃ s, ipSum bytes.length 0 bytes = some s ∧ s.toNat = (leWords bytes).sum) ∧
      ∃ c, calculateIpChecksum bytes.length 0 bytes = some c ∧ c.toNat = swap 256 (rfc1071 bytes) ∧
        (∀ offset, 2 ∣ offset → bytes[offset]? = some 0 → bytes[offset + 1]? = some 0 →
          calculateIpChecksum bytes.length 0 (writeU16 bytes offset c) = some 0) ∧
        ∀ n, 2 ∣ n → n ≤ bytes.length → ∃ p, calculateIpChecksum n 0 bytes = some p ∧
          calculateIpChecksum (bytes.length - n) (~~~ p).toUInt32 (bytes.drop n) = some c := by
  have hlt := sum_leWords_lt h
  have hzero : (0 : UInt32).toNat = 0 := rfl
  obtain ⟨s, hs, hs'⟩ := @ipSum_eq bytes 0 (by omega) []
  obtain ⟨c, hc, hc'⟩ := @calculateIpChecksum_eq bytes 0 (by omega) []
  rw [List.append_nil] at hs hc
  rw [hzero, Nat.zero_add] at hs' hc'
  refine ⟨⟨s, hs, hs'⟩, c, hc, by rw [rfc1071_eq, hc'], fun offset heven hoff hoff' => ?_, fun n heven hn => ?_⟩
  · have hlength : (writeU16 bytes offset c).length = bytes.length := by rw [writeU16, List.length_set, List.length_set]
    have hsum := sum_leWords_writeU16 heven hoff hoff' c
    obtain ⟨c', hcheck, hcheck'⟩ := @calculateIpChecksum_eq (writeU16 bytes offset c) 0 (by omega) []
    rw [hsum, hc', hzero, Nat.zero_add, rep_add_complement (by decide), Nat.sub_self] at hcheck'
    rw [List.append_nil, hlength] at hcheck
    have hcheck0 : c' = 0 := UInt16.toNat_inj.mp hcheck'
    rw [hcheck, hcheck0]
  · have hlength : (bytes.take n).length = n := by rw [List.length_take, Nat.min_eq_left hn]
    have hdrop : (bytes.drop n).length = bytes.length - n := List.length_drop
    have hsum := sum_leWords_append (by rwa [hlength]) (bytes.drop n)
    rw [List.take_append_drop] at hsum
    obtain ⟨p, hp, hp'⟩ := @calculateIpChecksum_eq (bytes.take n) 0 (by omega) (bytes.drop n)
    rw [hzero, Nat.zero_add] at hp'
    have hle := rep_le (by decide : 0 < 0xffff) (leWords (bytes.take n)).sum
    have hcompl : (~~~ p).toUInt32.toNat = rep 0xffff (leWords (bytes.take n)).sum := by
      have hsize : UInt16.size = 2 ^ 16 := rfl
      rw [UInt16.toNat_toUInt32, UInt16.toNat_not, hp', hsize]
      omega
    obtain ⟨c', hcheck, hcheck'⟩ := @calculateIpChecksum_eq (bytes.drop n) (~~~ p).toUInt32 (by omega) []
    rw [hcompl, rep_rep_add, ← hsum, ← hc'] at hcheck'
    rw [List.append_nil, hdrop] at hcheck
    rw [List.take_append_drop, hlength] at hp
    exact ⟨p, hp, by rw [hcheck, UInt16.toNat_inj.mp hcheck']⟩

/-- The header of a packet, with its checksum at offset two. -/
theorem calculateIpChecksum_spec_five :
    (∃ s, ipSum 5 0 [0x45, 0x00, 0x00, 0x00, 0xff] = some s ∧ s.toNat = (leWords [0x45, 0x00, 0x00, 0x00, 0xff]).sum) ∧
      ∃ c, calculateIpChecksum 5 0 [0x45, 0x00, 0x00, 0x00, 0xff] = some c ∧
        calculateIpChecksum 5 0 (writeU16 [0x45, 0x00, 0x00, 0x00, 0xff] 2 c) = some 0 := by
  obtain ⟨hsum, c, hc, -, hwrite, -⟩ := calculateIpChecksum_spec [0x45, 0x00, 0x00, 0x00, 0xff] (by decide)
  exact ⟨hsum, c, hc, hwrite 2 (by decide) rfl rfl⟩

end Sum

end Ns3Ndn.Network
