import Ns3Ndn.Lib.PackedBits

/-!
# Nix-vectors

`network/model/nix-vector.cc`: the indices of the neighbours along a path are the bits of a vector of words, each index behind the one before. They
are extracted from the end.

* **`isBitStack_iff`**: the vectors that are stacks of indices.
-/

namespace Ns3Ndn

open BitFieldLib

/-- `NixVector` -/
structure NixVector where
  /-- the actual nix-vector -/
  m_nixVector : List (BitVec 32)
  /-- For tracking where we are in the nix-vector -/
  m_used : ℕ
  /-- For tracking how many bits there are in the last word -/
  m_currentVectorBitSize : ℕ
  /-- The number of bits in all words -/
  m_totalBitSize : ℕ
  deriving Repr, DecidableEq

namespace NixVector

/-- `NixVector ()` -/
def empty : NixVector := ⟨[0], 0, 0, 0⟩

/-- `x << n`, which is not defined for a word when `n` is 32 or more. -/
def shl (x : BitVec 32) (n : ℕ) : Option (BitVec 32) := if n < 32 then some (x <<< n) else none

/-- `x >> n` -/
def shr (x : BitVec 32) (n : ℕ) : Option (BitVec 32) := if n < 32 then some (x >>> n) else none

def back (s : NixVector) : Option (BitVec 32) := s.m_nixVector[s.m_nixVector.length - 1]?

def setBack (s : NixVector) (x : BitVec 32) : List (BitVec 32) := s.m_nixVector.set (s.m_nixVector.length - 1) x

/-- `AddNeighborIndex`: `none` for `NS_FATAL_ERROR` and for a shift that is not defined. -/
def AddNeighborIndex (s : NixVector) (newBits : BitVec 32) (numberOfBits : ℕ) : Option NixVector :=
  if 32 < numberOfBits then none
  else if 32 < s.m_currentVectorBitSize + numberOfBits then
    if s.m_currentVectorBitSize = 32 then
      some { s with
        m_nixVector := s.m_nixVector ++ [newBits]
        m_currentVectorBitSize := numberOfBits
        m_totalBitSize := (s.m_totalBitSize + numberOfBits) % 2 ^ 32 }
    else
      -- Put what we can in the remaining portion of the vector entry
      s.back.bind fun last =>
      (shl newBits s.m_currentVectorBitSize).bind fun tempBits =>
      (shr newBits (32 - s.m_currentVectorBitSize)).map fun rest =>
        { s with
          m_nixVector := s.setBack (tempBits ||| last) ++ [rest]
          m_currentVectorBitSize := numberOfBits - (32 - s.m_currentVectorBitSize)
          m_totalBitSize := (s.m_totalBitSize + numberOfBits) % 2 ^ 32 }
  else
    s.back.bind fun last =>
    (shl newBits s.m_currentVectorBitSize).map fun newBits =>
      { s with
        m_nixVector := s.setBack (newBits ||| last)
        m_currentVectorBitSize := s.m_currentVectorBitSize + numberOfBits
        m_totalBitSize := (s.m_totalBitSize + numberOfBits) % 2 ^ 32 }

/-- `GetRemainingBits` -/
def GetRemainingBits (s : NixVector) : ℕ := (s.m_totalBitSize + (2 ^ 32 - s.m_used)) % 2 ^ 32

def use (s : NixVector) (numberOfBits : ℕ) : NixVector := { s with m_used := (s.m_used + numberOfBits) % 2 ^ 32 }

/-- `ExtractNeighborIndex`: `none` for `NS_FATAL_ERROR`, for an index that is out of range and for a shift that is not defined. -/
def ExtractNeighborIndex (s : NixVector) (numberOfBits : ℕ) : Option (BitVec 32 × NixVector) :=
  let totalRemainingBits := s.GetRemainingBits
  let vectorIndex := (totalRemainingBits - 1) / 32
  if 32 < numberOfBits then none
  else if totalRemainingBits < numberOfBits then none
  else if numberOfBits = 0 then none
  else if 0 < vectorIndex ∧ (totalRemainingBits - 1) % 32 < numberOfBits - 1 then
    -- we do span more than one
    s.m_nixVector[vectorIndex]?.bind fun word =>
    (shl word (32 - totalRemainingBits % 32)).bind fun extractedBits =>
    (shr extractedBits ((32 - totalRemainingBits % 32) - (numberOfBits - totalRemainingBits % 32))).bind fun extractedBits =>
    s.m_nixVector[vectorIndex - 1]?.bind fun word =>
    (shr word (32 - (numberOfBits - totalRemainingBits % 32))).map fun bits => (extractedBits ||| bits, s.use numberOfBits)
  else
    s.m_nixVector[vectorIndex]?.bind fun word =>
    (shl word (32 - totalRemainingBits % 32)).bind fun extractedBits =>
    (shr extractedBits (32 - numberOfBits)).map fun extractedBits => (extractedBits, s.use numberOfBits)

/-! ## The bit string -/

/-- The bits of the vector are the string `V` of `T` bits. -/
structure Holds (s : NixVector) (V T : ℕ) : Prop where
  lt : V < 2 ^ T
  length : s.m_nixVector.length = (T - 1) / 32 + 1
  word : ∀ (i : ℕ) (w : BitVec 32), s.m_nixVector[i]? = some w → w.toNat = field (32 * i) 32 V
  current : s.m_currentVectorBitSize = T - 32 * ((T - 1) / 32)
  total : s.m_totalBitSize = T % 2 ^ 32
  used : s.m_used < 2 ^ 32

variable {s : NixVector} {V T n : ℕ}

theorem holds_empty : empty.Holds 0 0 where
  lt := Nat.one_pos
  length := rfl
  word := by
    intro i w hw
    have hzero : field (32 * i) 32 0 = 0 := by rw [field_eq, Nat.zero_div, Nat.zero_mod]
    rw [hzero]
    cases i with
    | zero => exact congrArg BitVec.toNat (Option.some_inj.mp hw).symm
    | succ i => exact absurd hw (by simp [empty])
  current := rfl
  total := rfl
  used := by decide

theorem Holds.eq_add (h : s.Holds V T) : T = 32 * ((T - 1) / 32) + s.m_currentVectorBitSize := by
  rw [h.current]
  omega

theorem Holds.current_le (h : s.Holds V T) : s.m_currentVectorBitSize ≤ 32 := by
  rw [h.current]
  omega

theorem Holds.back (h : s.Holds V T) :
    ∃ last, s.back = some last ∧ last.toNat = field (32 * ((T - 1) / 32)) s.m_currentVectorBitSize V := by
  have hlast : s.m_nixVector.length - 1 < s.m_nixVector.length := by
    rw [h.length]
    omega
  refine ⟨_, List.getElem?_eq_getElem hlast, ?_⟩
  have hword := h.word _ _ (List.getElem?_eq_getElem hlast)
  have hsplit : 32 = s.m_currentVectorBitSize + (32 - s.m_currentVectorBitSize) := (Nat.add_sub_cancel' h.current_le).symm
  have hindex : s.m_nixVector.length - 1 = (T - 1) / 32 := by rw [h.length, Nat.add_sub_cancel]
  have happend := field_append (32 * ((T - 1) / 32)) s.m_currentVectorBitSize (32 - s.m_currentVectorBitSize) V
  rw [← h.eq_add, field_of_lt h.lt le_rfl, Nat.zero_mul, Nat.zero_add, ← hsplit] at happend
  rw [hword, hindex, happend]

theorem toNat_shiftLeft_or {b last : BitVec 32} {c : ℕ} (hc : c ≤ 32) (hlast : last.toNat < 2 ^ c) :
    ((b <<< c) ||| last).toNat = field 0 (32 - c) b.toNat * 2 ^ c + last.toNat := by
  have hmod : b.toNat * 2 ^ c % 2 ^ 32 = 2 ^ c * (b.toNat % 2 ^ (32 - c)) := by
    have hpow : (2 : ℕ) ^ 32 = 2 ^ c * 2 ^ (32 - c) := by rw [← pow_add, Nat.add_sub_cancel' hc]
    rw [Nat.mul_comm, hpow, Nat.mul_mod_mul_left]
  rw [BitVec.toNat_or, BitVec.toNat_shiftLeft, Nat.shiftLeft_eq, hmod, ← Nat.two_pow_add_eq_or_of_lt hlast, field_eq, pow_zero, Nat.div_one,
    Nat.mul_comm]

section Add

variable {b : BitVec 32}

theorem Holds.old_word (h : s.Holds V T) {i : ℕ} (hi : i < (T - 1) / 32) {w : BitVec 32} (hw : s.m_nixVector[i]? = some w) :
    w.toNat = field (32 * i) 32 (V + b.toNat * 2 ^ T) := by
  rw [h.word i w hw, field_extend_below (by omega)]

theorem Holds.last_word (h : s.Holds V T) {last : BitVec 32} (hlast : last.toNat = field (32 * ((T - 1) / 32)) s.m_currentVectorBitSize V) :
    ((b <<< s.m_currentVectorBitSize) ||| last).toNat = field (32 * ((T - 1) / 32)) 32 (V + b.toNat * 2 ^ T) := by
  have heq := h.eq_add
  have hsplit : 32 = s.m_currentVectorBitSize + (32 - s.m_currentVectorBitSize) := (Nat.add_sub_cancel' h.current_le).symm
  have hV : V < 2 ^ (32 * ((T - 1) / 32) + s.m_currentVectorBitSize) := heq ▸ h.lt
  have hextend := field_extend (m := 32 - s.m_currentVectorBitSize) (v := b.toNat) hV
  rw [← heq, ← hsplit] at hextend
  rw [toNat_shiftLeft_or h.current_le (hlast ▸ field_lt_of_lt hV), hlast, hextend]

theorem words_over {q c : ℕ} (heq : T = 32 * q + c) (hc : c ≤ 32) (hover : 32 < c + n) (hn : n ≤ 32) :
    (T + n - 1) / 32 = q + 1 := by
  omega

theorem words_room {q c : ℕ} (heq : T = 32 * q + c) (hn : 1 ≤ n) (hroom : c + n ≤ 32) : (T + n - 1) / 32 = q := by
  omega

theorem Holds.total_add (h : s.Holds V T) (n : ℕ) : (s.m_totalBitSize + n) % 2 ^ 32 = (T + n) % 2 ^ 32 := by
  rw [h.total, Nat.mod_add_mod]

/-- **An index is added** behind the string. -/
theorem Holds.add (h : s.Holds V T) (hn : 1 ≤ n) (hn' : n ≤ 32) (hb : b.toNat < 2 ^ n) :
    ∃ s', s.AddNeighborIndex b n = some s' ∧ s'.Holds (V + b.toNat * 2 ^ T) (T + n) ∧ s'.m_used = s.m_used := by
  have heq := h.eq_add
  have hle := h.current_le
  obtain ⟨last, hback, hlast⟩ := h.back
  have hlastWord := h.last_word (b := b) hlast
  have hlength := h.length
  have hold := fun i hi w hw => h.old_word (b := b) (i := i) hi (w := w) hw
  generalize (T - 1) / 32 = q at heq hlastWord hlength hold
  unfold AddNeighborIndex
  rw [if_neg (by omega)]
  by_cases hover : 32 < s.m_currentVectorBitSize + n
  · rw [if_pos hover]
    by_cases hfull : s.m_currentVectorBitSize = 32
    · -- the last word is full
      rw [if_pos hfull]
      refine ⟨_, rfl, ⟨extend_lt h.lt hb, ?_, ?_, ?_, h.total_add n, h.used⟩, rfl⟩
      · simp only [List.length_append, List.length_singleton, hlength]
        rw [words_over heq hle hover hn']
      · intro i w hw
        dsimp only at hw
        by_cases hi : i < s.m_nixVector.length
        · rw [List.getElem?_append_left hi] at hw
          rw [h.word i w hw, field_extend_below (by rw [hlength] at hi; omega)]
        · rw [List.getElem?_append_right (by omega), List.getElem?_singleton] at hw
          split_ifs at hw with hzero
          have hi' : 32 * i = T + 0 := by
            rw [hlength] at hi hzero
            omega
          rw [← Option.some_inj.mp hw, hi', field_extend_above h.lt]
          exact (field_zero_of_lt b.isLt).symm
      · dsimp only
        rw [words_over heq hle hover hn']
        omega
    · -- the index begins in the last word and ends in a new one
      have hshl : shl b s.m_currentVectorBitSize = some (b <<< s.m_currentVectorBitSize) := if_pos (by omega)
      have hshr : shr b (32 - s.m_currentVectorBitSize) = some (b >>> (32 - s.m_currentVectorBitSize)) := if_pos (by omega)
      rw [if_neg hfull, hback, Option.bind_some, hshl, Option.bind_some, hshr, Option.map_some]
      refine ⟨_, rfl, ⟨extend_lt h.lt hb, ?_, ?_, ?_, h.total_add n, h.used⟩, rfl⟩
      · simp only [setBack, List.length_append, List.length_set, List.length_singleton, hlength]
        rw [words_over heq hle hover hn']
      · intro i w hw
        dsimp only [setBack] at hw
        by_cases hi : i < s.m_nixVector.length
        · rw [List.getElem?_append_left (by rwa [List.length_set]), List.getElem?_set] at hw
          split_ifs at hw with hsame
          · rw [← Option.some_inj.mp hw, ← hsame, hlength, Nat.add_sub_cancel]
            exact hlastWord
          · exact hold i (by omega) w hw
        · rw [List.getElem?_append_right (by rw [List.length_set]; omega), List.getElem?_singleton, List.length_set] at hw
          split_ifs at hw with hzero
          have hi' : 32 * i = T + (32 - s.m_currentVectorBitSize) := by
            rw [hlength] at hi hzero
            omega
          rw [← Option.some_inj.mp hw, hi', field_extend_above h.lt, field_eq, BitVec.toNat_ushiftRight, Nat.shiftRight_eq_div_pow,
            Nat.mod_eq_of_lt ((Nat.div_le_self _ _).trans_lt b.isLt)]
      · dsimp only
        rw [words_over heq hle hover hn']
        omega
  · -- there is room in the last word
    have hshl : shl b s.m_currentVectorBitSize = some (b <<< s.m_currentVectorBitSize) := if_pos (by omega)
    rw [if_neg hover, hback, Option.bind_some, hshl, Option.map_some]
    refine ⟨_, rfl, ⟨extend_lt h.lt hb, ?_, ?_, ?_, h.total_add n, h.used⟩, rfl⟩
    · simp only [setBack, List.length_set, hlength]
      rw [words_room heq hn (not_lt.mp hover)]
    · intro i w hw
      dsimp only [setBack] at hw
      rw [List.getElem?_set] at hw
      split_ifs at hw with hsame hbound
      · rw [← Option.some_inj.mp hw, ← hsame, hlength, Nat.add_sub_cancel]
        exact hlastWord
      · have hi := (List.getElem?_eq_some_iff.mp hw).1
        exact hold i (by omega) w hw
    · dsimp only
      rw [words_room heq hn (not_lt.mp hover)]
      omega

end Add

/-! ## Extraction -/

section Extract

variable {word : BitVec 32} {ρ : ℕ}

/-- The bits below `ρ`, and of these the last `n`. -/
theorem toNat_shiftLeft_shiftRight (hρ : ρ ≤ 32) (hn : n ≤ ρ) :
    ((word <<< (32 - ρ)) >>> (32 - n)).toNat = field (ρ - n) n word.toNat := by
  have hword : (2 : ℕ) ^ 32 = 2 ^ (32 - ρ) * 2 ^ ρ := by rw [← pow_add, Nat.sub_add_cancel hρ]
  have hshift : (2 : ℕ) ^ (32 - n) = 2 ^ (32 - ρ) * 2 ^ (ρ - n) := by rw [← pow_add]; congr 1; omega
  have hsplit : (2 : ℕ) ^ ρ = 2 ^ (ρ - n) * 2 ^ n := by rw [← pow_add, Nat.sub_add_cancel hn]
  rw [BitVec.toNat_ushiftRight, BitVec.toNat_shiftLeft, Nat.shiftLeft_eq, Nat.shiftRight_eq_div_pow, hword, hshift, Nat.mul_comm,
    Nat.mul_mod_mul_left, Nat.mul_div_mul_left _ _ (Nat.two_pow_pos _), hsplit, Nat.mod_mul_right_div_self, field_eq]

/-- The bits below `ρ`, in front of `n - ρ` other ones. -/
theorem toNat_shiftLeft_shiftRight_of_lt (hn : n ≤ 32) (hρ : ρ < n) :
    ((word <<< (32 - ρ)) >>> (32 - n)).toNat = 2 ^ (n - ρ) * field 0 ρ word.toNat := by
  have hword : (2 : ℕ) ^ 32 = 2 ^ (32 - ρ) * 2 ^ ρ := by rw [← pow_add, Nat.sub_add_cancel (by omega)]
  have hshift : (2 : ℕ) ^ (32 - ρ) = 2 ^ (32 - n) * 2 ^ (n - ρ) := by rw [← pow_add]; congr 1; omega
  rw [BitVec.toNat_ushiftRight, BitVec.toNat_shiftLeft, Nat.shiftLeft_eq, Nat.shiftRight_eq_div_pow, hword, Nat.mul_comm,
    Nat.mul_mod_mul_left, hshift, Nat.mul_assoc, Nat.mul_div_cancel_left _ (Nat.two_pow_pos _), field_eq, pow_zero, Nat.div_one]

theorem toNat_shiftRight {m : ℕ} (hm : m ≤ 32) : (word >>> (32 - m)).toNat = field (32 - m) m word.toNat := by
  have hword : (2 : ℕ) ^ 32 = 2 ^ (32 - m) * 2 ^ m := by rw [← pow_add, Nat.sub_add_cancel hm]
  have hlt : word.toNat / 2 ^ (32 - m) < 2 ^ m := Nat.div_lt_of_lt_mul (hword ▸ word.isLt)
  rw [BitVec.toNat_ushiftRight, Nat.shiftRight_eq_div_pow, field_eq, Nat.mod_eq_of_lt hlt]

theorem Holds.getElem? (h : s.Holds V T) {i : ℕ} (hi : i ≤ (T - 1) / 32) :
    ∃ w, s.m_nixVector[i]? = some w ∧ w.toNat = field (32 * i) 32 V := by
  have hlt : i < s.m_nixVector.length := by
    rw [h.length]
    omega
  exact ⟨_, List.getElem?_eq_getElem hlt, h.word _ _ (List.getElem?_eq_getElem hlt)⟩

/-- **An index is extracted** from the end of the bits that remain, unless they end with a word. -/
theorem Holds.extract (h : s.Holds V T) (hT : s.GetRemainingBits ≤ T) (hn : 1 ≤ n) (hn' : n ≤ 32) (hle : n ≤ s.GetRemainingBits)
    (hword : s.GetRemainingBits % 32 ≠ 0) :
    ∃ bits, s.ExtractNeighborIndex n = some (bits, s.use n) ∧ bits.toNat = field (s.GetRemainingBits - n) n V := by
  unfold ExtractNeighborIndex
  generalize s.GetRemainingBits = R at *
  obtain ⟨q, ρ, rfl, hpos, hlt⟩ : ∃ q ρ, R = 32 * q + ρ ∧ 0 < ρ ∧ ρ < 32 :=
    ⟨R / 32, R % 32, (Nat.div_add_mod R 32).symm, Nat.pos_of_ne_zero hword, Nat.mod_lt R (by decide)⟩
  have hmod : (32 * q + ρ) % 32 = ρ := by rw [Nat.mul_add_mod, Nat.mod_eq_of_lt hlt]
  have hdiv : (32 * q + ρ - 1) / 32 = q ∧ (32 * q + ρ - 1) % 32 = ρ - 1 := by omega
  dsimp only
  rw [hmod, hdiv.1, hdiv.2]
  clear hmod hdiv hword
  obtain ⟨w, hw, hval⟩ := h.getElem? (i := q) (by omega)
  have hshl : shl w (32 - ρ) = some (w <<< (32 - ρ)) := if_pos (by omega)
  rw [if_neg (by omega), if_neg (by omega), if_neg (by omega)]
  by_cases hspan : 0 < q ∧ ρ - 1 < n - 1
  · obtain ⟨m, rfl⟩ := Nat.exists_eq_add_of_lt (show ρ < n by omega)
    obtain ⟨p, rfl⟩ := Nat.exists_eq_add_of_lt hspan.1
    rw [Nat.zero_add, Nat.add_assoc ρ] at *
    obtain ⟨w', hw', hval'⟩ := h.getElem? (i := p) (by omega)
    have hstart : 32 * (p + 1) + ρ - (ρ + (m + 1)) = 32 * p + (32 - (m + 1)) := by omega
    have hshr : ∀ x, shr x (32 - ρ - (m + 1)) = some (x >>> (32 - (ρ + (m + 1)))) := fun x => by
      rw [Nat.sub_sub]
      exact if_pos (by omega)
    have hshr' : shr w' (32 - (m + 1)) = some (w' >>> (32 - (m + 1))) := if_pos (by omega)
    rw [if_pos hspan, hw, Option.bind_some, hshl, Option.bind_some, Nat.add_sub_cancel_left, hshr, Option.bind_some, Nat.add_sub_cancel, hw',
      Option.bind_some, hshr', Option.map_some, hstart]
    refine ⟨_, rfl, ?_⟩
    have happend := field_append (32 * p + (32 - (m + 1))) (m + 1) ρ V
    have hlow : (w' >>> (32 - (m + 1))).toNat = field (32 * p + (32 - (m + 1))) (m + 1) V := by
      rw [toNat_shiftRight (by omega), hval', field_field (by omega)]
    have hhigh : field 0 ρ w.toNat = field (32 * p + (32 - (m + 1)) + (m + 1)) ρ V := by
      rw [hval, field_field (by omega), Nat.add_assoc, Nat.sub_add_cancel (by omega), Nat.add_zero, Nat.mul_succ]
    rw [BitVec.toNat_or, toNat_shiftLeft_shiftRight_of_lt hn' (Nat.lt_add_of_pos_right (Nat.succ_pos m)), Nat.add_sub_cancel_left, hlow,
      ← Nat.two_pow_add_eq_or_of_lt (field_lt _ _ _), hhigh, ← Nat.mul_comm, Nat.add_comm ρ, happend]
  · have hρ : n ≤ ρ := by omega
    have hshr : ∀ x, shr x (32 - n) = some (x >>> (32 - n)) := fun x => if_pos (by omega)
    rw [if_neg hspan, hw, Option.bind_some, hshl, Option.bind_some, hshr, Option.map_some]
    refine ⟨_, rfl, ?_⟩
    rw [toNat_shiftLeft_shiftRight (by omega) hρ, hval, field_field (by omega), Nat.add_sub_assoc hρ]

theorem extract_eq_none (hword : s.GetRemainingBits % 32 = 0) : s.ExtractNeighborIndex n = none := by
  have hshl : ∀ x, shl x (32 - s.GetRemainingBits % 32) = none := fun x => if_neg (by omega)
  unfold ExtractNeighborIndex
  simp only [hshl, Option.bind_none, Option.bind_fun_none, ite_self]

end Extract

/-! ## Stacks -/

structure NeighborIndex where
  bits : BitVec 32
  size : ℕ
  pos : 1 ≤ size
  le : size ≤ 32
  lt : bits.toNat < 2 ^ size

/-- The bits of some indices. -/
def total (l : List NeighborIndex) : ℕ := (l.map NeighborIndex.size).sum

/-- The string of some indices. -/
def value : List NeighborIndex → ℕ
  | [] => 0
  | x :: l => x.bits.toNat + value l * 2 ^ x.size

/-- `AddNeighborIndex` for some indices. -/
def addAll : List NeighborIndex → NixVector → Option NixVector
  | [], s => some s
  | x :: l, s => (s.AddNeighborIndex x.bits x.size).bind (addAll l)

def extractAll : List ℕ → NixVector → Option (List (BitVec 32) × NixVector)
  | [], s => some ([], s)
  | n :: l, s => (s.ExtractNeighborIndex n).bind fun (bits, s) => (extractAll l s).map fun (l, s) => (bits :: l, s)

/-- The last indices of a vector are extracted in the reverse order, and the bits of the other ones remain. -/
def IsBitStack (ops : List NeighborIndex) : Prop :=
  ∀ l r, l ++ r = ops → ∃ s s', addAll ops empty = some s ∧
    extractAll (r.reverse.map NeighborIndex.size) s = some (r.reverse.map NeighborIndex.bits, s') ∧ s'.GetRemainingBits = total l

variable {ops l r : List NeighborIndex}

@[simp]
theorem total_nil : total [] = 0 := rfl

@[simp]
theorem total_cons (x : NeighborIndex) (l : List NeighborIndex) : total (x :: l) = x.size + total l := rfl

@[simp]
theorem total_append (l r : List NeighborIndex) : total (l ++ r) = total l + total r := by
  simp [total]

theorem value_lt : ∀ l : List NeighborIndex, value l < 2 ^ total l
  | [] => Nat.one_pos
  | x :: l => extend_lt x.lt (value_lt l)

theorem value_append (r : List NeighborIndex) : ∀ l : List NeighborIndex, value (l ++ r) = value l + value r * 2 ^ total l
  | [] => by simp [value]
  | x :: l => by
    rw [List.cons_append, value, value, value_append r l, total_cons, pow_add]
    ring

theorem field_value (l t : List NeighborIndex) (x : NeighborIndex) :
    field (total l) x.size (value (l ++ x :: t)) = x.bits.toNat := by
  have hnew : field (total l + 0) x.size (value l + value (x :: t) * 2 ^ total l) = field 0 x.size (value (x :: t)) :=
    field_extend_above (value_lt l)
  rw [Nat.add_zero] at hnew
  rw [value_append, hnew, value, field_extend_below (Nat.zero_add _).le]
  exact field_zero_of_lt x.lt

theorem addAll_spec (h : s.Holds V T) (l : List NeighborIndex) :
    ∃ s', addAll l s = some s' ∧ s'.Holds (V + value l * 2 ^ T) (T + total l) ∧ s'.m_used = s.m_used := by
  induction l generalizing s V T with
  | nil => exact ⟨s, rfl, by simpa [value] using h, rfl⟩
  | cons x l ih =>
    obtain ⟨s₁, hrun, h₁, hused⟩ := h.add x.pos x.le x.lt
    obtain ⟨s', hrun', h', hused'⟩ := ih h₁
    refine ⟨s', by rw [addAll, hrun, Option.bind_some, hrun'], ?_, hused'.trans hused⟩
    have hvalue : V + x.bits.toNat * 2 ^ T + value l * 2 ^ (T + x.size) = V + value (x :: l) * 2 ^ T := by
      rw [value, pow_add]
      ring
    rw [← hvalue, total_cons, ← Nat.add_assoc]
    exact h'

theorem extractAll_append (r : List ℕ) (s : NixVector) : ∀ l : List ℕ,
    extractAll (l ++ r) s = (extractAll l s).bind fun (bits, s) => (extractAll r s).map fun (bits', s) => (bits ++ bits', s)
  | [] => by
    simp [extractAll]
  | n :: l => by
    rw [List.cons_append, extractAll, extractAll]
    cases s.ExtractNeighborIndex n with
    | none => rfl
    | some p =>
      simp only [Option.bind_some, extractAll_append r p.2 l]
      cases extractAll l p.2 with
      | none => rfl
      | some q =>
        simp only [Option.bind_some, Option.map_some, Option.map_map]
        rfl

theorem GetRemainingBits_use (hused : s.m_used < 2 ^ 32) (hle : n ≤ s.GetRemainingBits) (hn : n ≤ 32) :
    (s.use n).GetRemainingBits = s.GetRemainingBits - n := by
  unfold GetRemainingBits use at *
  dsimp only
  omega

theorem Holds.use (h : s.Holds V T) (n : ℕ) : (s.use n).Holds V T :=
  ⟨h.lt, h.length, h.word, h.current, h.total, Nat.mod_lt _ (by decide)⟩

/-- **The last indices are extracted**, unless there is one that ends with a word. -/
theorem extractAll_spec (l : List NeighborIndex) :
    ∀ (r t : List NeighborIndex) (s : NixVector), s.Holds (value (l ++ r ++ t)) (total (l ++ r ++ t)) →
      s.GetRemainingBits = total (l ++ r) → (∀ q, q ≠ [] → q <+: r → total (l ++ q) % 32 ≠ 0) →
      ∃ s', extractAll (r.reverse.map NeighborIndex.size) s = some (r.reverse.map NeighborIndex.bits, s') ∧
        s'.GetRemainingBits = total l := by
  intro r
  induction r using List.reverseRecOn with
  | nil =>
    intro t s h hR hword
    exact ⟨s, rfl, by rw [hR, List.append_nil]⟩
  | append_singleton r x ih =>
    intro t s h hR hword
    have hlast := hword (r ++ [x]) (by simp) (List.prefix_refl _)
    have hsize : s.GetRemainingBits = total (l ++ r) + x.size := by
      rw [hR]
      simp [Nat.add_assoc]
    obtain ⟨bits, hrun, hbits⟩ := h.extract (n := x.size) (by rw [hR, total_append _ t]; omega) x.pos x.le (by omega) (hR ▸ hlast)
    have hstring : l ++ (r ++ [x]) ++ t = l ++ r ++ x :: t := by simp
    have heq : bits = x.bits := by
      apply BitVec.eq_of_toNat_eq
      rw [hbits, hsize, Nat.add_sub_cancel, hstring, field_value]
    have hR' : (s.use x.size).GetRemainingBits = total (l ++ r) := by
      rw [GetRemainingBits_use h.used (by omega) x.le, hsize, Nat.add_sub_cancel]
    obtain ⟨s', hrun', hs'⟩ := ih (x :: t) (s.use x.size) (hstring ▸ h.use x.size) hR'
      fun q hq hqr => hword q hq (hqr.trans (List.prefix_append r [x]))
    refine ⟨s', ?_, hs'⟩
    rw [List.reverse_append, List.reverse_singleton, List.singleton_append, List.map_cons, List.map_cons, extractAll, hrun, Option.bind_some]
    dsimp only
    rw [hrun', heq, Option.map_some]

/-- **A vector is a stack of indices** if and only if no index ends with a word, and the bits can be counted. -/
theorem isBitStack_iff (ops : List NeighborIndex) :
    IsBitStack ops ↔ (∀ p, p ≠ [] → p <+: ops → total p % 32 ≠ 0) ∧ total ops < 2 ^ 32 := by
  obtain ⟨s, hadd, hs, hused⟩ := addAll_spec holds_empty ops
  simp only [Nat.zero_add, pow_zero, Nat.mul_one] at hs
  constructor
  · intro h
    constructor
    · intro p hp hpre hword
      obtain ⟨t, rfl⟩ := hpre
      obtain ⟨q, x, rfl⟩ := (List.eq_nil_or_concat' p).resolve_left hp
      -- after the indices behind it, the last index of `p` cannot be extracted
      obtain ⟨s₁, s₂, hadd₁, hrun, hR⟩ := h (q ++ [x]) t rfl
      obtain ⟨s₃, s₄, hadd₃, hrun', -⟩ := h q (x :: t) (by simp)
      obtain rfl := Option.some_inj.mp (hadd₁.symm.trans hadd₃)
      rw [List.reverse_cons, List.map_append, extractAll_append, hrun, Option.bind_some] at hrun'
      simp only [List.map_cons, List.map_nil, extractAll, extract_eq_none (hR ▸ hword), Option.bind_none, Option.map_none] at hrun'
      exact Option.some_ne_none _ hrun'.symm
    · obtain ⟨s₁, s₂, -, -, hR⟩ := h ops [] (List.append_nil ops)
      rw [← hR]
      exact Nat.mod_lt _ (by decide)
  · rintro ⟨hword, htotal⟩ l r rfl
    have hR : s.GetRemainingBits = total (l ++ r) := by
      unfold GetRemainingBits
      rw [hs.total, hused]
      change (total (l ++ r) % 2 ^ 32 + (2 ^ 32 - 0)) % 2 ^ 32 = total (l ++ r)
      omega
    obtain ⟨s', hrun, hs'⟩ := extractAll_spec l r [] s (by rwa [List.append_nil]) hR fun q hq hqr =>
      hword (l ++ q) (by simp [hq]) ((List.prefix_append_right_inj l).mpr hqr)
    exact ⟨s, s', hadd, hrun, hs'⟩

/-- One index of a whole word. -/
theorem not_isBitStack_word : ¬ IsBitStack [⟨1, 32, by decide, by decide, by decide⟩] := by
  intro h
  obtain ⟨s, s', hadd, hrun, -⟩ := h [] _ rfl
  have hs : s = ⟨[1], 0, 32, 32⟩ := (Option.some_inj.mp hadd).symm
  have hnone : extractAll [32] ⟨[1], 0, 32, 32⟩ = none := by rw [extractAll, extract_eq_none rfl, Option.bind_none]
  rw [hs] at hrun
  exact Option.some_ne_none _ (hrun.symm.trans hnone)

end NixVector

end Ns3Ndn
