import Ns3Ndn.Internet.TcpRxWindow
import Ns3Ndn.Lib.Ranges

/-!
# The blocks that the receive buffer reports

`UpdateSackList` puts the block of a new segment first, and joins it with the blocks that it meets. A segment that has a
piece inside of it takes its place, and `Add` does not tell the list: a block with bytes of that piece stays, and overlaps
the new one.

* `RxStep.Unlisted`: no piece is dropped that is in a block; `SackSpec`: what the list is to be;
* **`sackSpec_of_steps`**: the list in every run of such segments; `not_sackSpec`: a segment around a piece.
-/

namespace Ns3Ndn.Internet

open Network SequenceNumber32 PieceLib RangeLib

/-! ## Runs -/

/-- A run: the buffer, and the entries that the last `Add` put beyond `NextRxSequence`. -/
structure RxRun where
  buffer : TcpRxBuffer
  stored : List BufEntry := []

/-- The entries for which `Add` takes the branch of a packet that is inside of the new one. -/
def TcpRxBuffer.embedded (s : TcpRxBuffer) (p : List UInt8) (sequenceNumber : SequenceNumber32) : List BufEntry :=
  let fit := s.fitWindow sequenceNumber (sequenceNumber + packetSize p)
  s.data.filter fun i => ! (removeOverlap fit.1 fit.2 s.size s.data).data.contains i

namespace RxRun

def step (σ : RxRun) : RxStep → Option RxRun
  | .add p sequenceNumber => (σ.buffer.add p sequenceNumber).map fun r =>
    ⟨r.2, r.2.data.filter fun i => gt i.1 r.2.nextRxSeq && ! σ.buffer.data.contains i⟩
  | .extract maxSize => (σ.buffer.extract maxSize).map fun r => ⟨r.2, σ.stored⟩

def Steps (ok : TcpRxBuffer → RxStep → Prop) : RxRun → RxRun → Prop :=
  Relation.ReflTransGen fun σ σ' => ∃ c, ok σ.buffer c ∧ σ.step c = some σ'

end RxRun

namespace RxStep

/-- Segments that end from `slack` before `NextRxSequence` to `slack` after the end of the window. -/
def Near (slack : ℕ) (s : TcpRxBuffer) : RxStep → Prop
  | add p sequenceNumber =>
    p.length < 2 ^ 30 ∧ -slack ≤ (sub sequenceNumber s.nextRxSeq).toInt + p.length ∧
      (sub sequenceNumber s.nextRxSeq).toInt + p.length ≤ s.maxBuffer.toNat + slack
  | extract _ => True

/-- **No packet that is in a block is inside of the segment**, unless the segment has the byte that is missing. -/
def Unlisted (s : TcpRxBuffer) : RxStep → Prop
  | add p sequenceNumber =>
    le sequenceNumber s.nextRxSeq = true ∨ ∀ i ∈ s.embedded p sequenceNumber, ∀ x ∈ s.sackList,
      ¬ (lt i.1 x.2 = true ∧ lt x.1 (i.1 + packetSize i.2) = true)
  | extract _ => True

end RxStep

def HasByte (s : TcpRxBuffer) (a : SequenceNumber32) : Prop :=
  ∃ i ∈ s.data, le i.1 a = true ∧ lt a (i.1 + packetSize i.2) = true

def BlockGap (x y : SackBlock) : Prop := lt x.2 y.1 = true ∨ lt y.2 x.1 = true

/-- **What the list is to be**: at most four blocks with gaps between them, each of bytes that are kept beyond
`NextRxSequence`, and first the block of what the last segment added there. -/
structure SackSpec (σ : RxRun) : Prop where
  length : σ.buffer.sackList.length ≤ 4
  nonempty : ∀ x ∈ σ.buffer.sackList, lt x.1 x.2 = true
  gaps : σ.buffer.sackList.Pairwise BlockGap
  beyond : ∀ x ∈ σ.buffer.sackList, gt x.1 σ.buffer.nextRxSeq = true
  kept : ∀ x ∈ σ.buffer.sackList, ∀ a, le x.1 a = true → lt a x.2 = true → HasByte σ.buffer a
  first : ∀ i ∈ σ.stored, ∃ x ∈ σ.buffer.sackList.head?, le x.1 i.1 = true ∧ le (i.1 + packetSize i.2) x.2 = true

/-! ## The list by positions -/

section Blocks

variable {isn : SequenceNumber32} {lo : ℕ} {x : ℕ × ℕ} {blocks : List (ℕ × ℕ)}

def blockAt (isn : SequenceNumber32) (x : ℕ × ℕ) : SackBlock := (seqAt isn x.1, seqAt isn x.2)

def Within (lo : ℕ) (x : ℕ × ℕ) : Prop := lo ≤ x.1 ∧ x.1 < x.2 ∧ x.2 < lo + 2 ^ 31

theorem mergeOne_blockAt (hx : Within lo x) (hblocks : ∀ y ∈ blocks, Within lo y) :
    TcpRxBuffer.mergeOne (blockAt isn x) (blocks.map (blockAt isn)) =
      some ((join x blocks).map fun m => (blockAt isn m.1, m.2.map (blockAt isn))) := by
  induction blocks with
  | nil => rfl
  | cons y rest ih =>
    obtain ⟨hy, hyy, hy'⟩ := hblocks y List.mem_cons_self
    obtain ⟨hx, hxx, hx'⟩ := hx
    have hrest := ih fun z hz => hblocks z (List.mem_cons_of_mem y hz)
    have hleft : ((blockAt isn x).1 == (blockAt isn y).2) = decide (x.1 = y.2) := beq_seqAt (by omega) (by omega)
    have hright : ((blockAt isn x).2 == (blockAt isn y).1) = decide (x.2 = y.1) := beq_seqAt (by omega) (by omega)
    rw [List.map_cons, TcpRxBuffer.mergeOne, join, hleft, hright]
    by_cases hmeet : x.1 = y.2
    · have hlt : lt (blockAt isn y).1 (blockAt isn x).2 = decide (y.1 < x.2) := lt_seqAt (by omega) (by omega)
      rw [decide_eq_true hmeet, if_pos rfl, hlt, decide_eq_true (by omega), if_pos rfl, if_pos hmeet]
      rfl
    rw [decide_eq_false hmeet, if_neg Bool.false_ne_true, if_neg hmeet]
    by_cases hmeet' : x.2 = y.1
    · have hlt : lt (blockAt isn x).1 (blockAt isn y).2 = decide (x.1 < y.2) := lt_seqAt (by omega) (by omega)
      rw [decide_eq_true hmeet', if_pos rfl, hlt, decide_eq_true (by omega), if_pos rfl, if_pos hmeet']
      rfl
    · rw [decide_eq_false hmeet', if_neg Bool.false_ne_true, if_neg hmeet', hrest, Option.map_some, Option.map_map,
        Option.map_map]
      rfl

theorem within_join {m : (ℕ × ℕ) × List (ℕ × ℕ)} (hx : Within lo x) (hblocks : ∀ y ∈ blocks, Within lo y)
    (h : join x blocks = some m) : Within lo m.1 ∧ ∀ y ∈ m.2, Within lo y := by
  obtain ⟨z, hperm, hsub, hjoined⟩ := join_eq_some h
  obtain ⟨hz, hzz, hz'⟩ := hblocks z (hperm.mem_iff.mpr List.mem_cons_self)
  obtain ⟨hx, hxx, hx'⟩ := hx
  refine ⟨?_, fun y hy => hblocks y (hsub.subset hy)⟩
  rcases hjoined with ⟨hmeet, heq⟩ | ⟨hmeet, heq⟩ <;> rw [heq]
  · exact ⟨hz, by dsimp only; omega, hx'⟩
  · exact ⟨hx, by dsimp only; omega, hz'⟩

theorem within_joinAll (n : ℕ) (hx : Within lo x) (hblocks : ∀ y ∈ blocks, Within lo y) :
    ∀ y ∈ joinAll n x blocks, Within lo y := by
  induction n generalizing x blocks with
  | zero => exact List.forall_mem_cons.mpr ⟨hx, hblocks⟩
  | succ n ih =>
    rw [joinAll]
    cases h : join x blocks with
    | none => exact List.forall_mem_cons.mpr ⟨hx, hblocks⟩
    | some m =>
      obtain ⟨hm, hrest⟩ := within_join hx hblocks h
      exact ih hm hrest

theorem mergeBlocks_blockAt (isn : SequenceNumber32) (n : ℕ) (hx : Within lo x) (hblocks : ∀ y ∈ blocks, Within lo y) :
    TcpRxBuffer.mergeBlocks n (blockAt isn x) (blocks.map (blockAt isn)) = some ((joinAll n x blocks).map (blockAt isn)) := by
  induction n generalizing x blocks with
  | zero => rfl
  | succ n ih =>
    rw [TcpRxBuffer.mergeBlocks, mergeOne_blockAt hx hblocks, joinAll]
    cases h : join x blocks with
    | none => rfl
    | some m =>
      obtain ⟨hm, hrest⟩ := within_join hx hblocks h
      exact ih hm hrest

theorem blockGap_blockAt {y : ℕ × ℕ} (hx : Within lo x) (hy : Within lo y) :
    BlockGap (blockAt isn x) (blockAt isn y) ↔ Gap x y := by
  obtain ⟨hx, hxx, hx'⟩ := hx
  obtain ⟨hy, hyy, hy'⟩ := hy
  have hlt : lt (blockAt isn x).2 (blockAt isn y).1 = decide (x.2 < y.1) := lt_seqAt (by omega) (by omega)
  have hgt : lt (blockAt isn y).2 (blockAt isn x).1 = decide (y.2 < x.1) := lt_seqAt (by omega) (by omega)
  rw [BlockGap, hlt, hgt, decide_eq_true_eq, decide_eq_true_eq, Gap]

theorem pairwise_blockGap (hblocks : ∀ y ∈ blocks, Within lo y) :
    (blocks.map (blockAt isn)).Pairwise BlockGap ↔ blocks.Pairwise Gap := by
  rw [List.pairwise_map]
  exact List.Pairwise.iff_of_mem fun hx hy => blockGap_blockAt (hblocks _ hx) (hblocks _ hy)

/-- **A new block** that overlaps none of the list is in the first block, and there are gaps between all. -/
theorem updateSackList_blockAt (isn : SequenceNumber32) {n : ℕ} (hn : n < x.1) (hlo : lo ≤ n) (hx : Within lo x) (hblocks : ∀ y ∈ blocks, Within lo y)
    (hoff : ∀ y ∈ blocks, Off x y) (hgap : blocks.Pairwise Gap) (hlength : blocks.length ≤ 4) :
    ∃ z rest, TcpRxBuffer.updateSackList (seqAt isn n) (seqAt isn x.1) (seqAt isn x.2) (blocks.map (blockAt isn)) =
        some ((z :: rest).map (blockAt isn)) ∧
      z.1 ≤ x.1 ∧ x.2 ≤ z.2 ∧ (z :: rest).length ≤ 4 ∧ (z :: rest).Pairwise Gap ∧ ∀ y ∈ z :: rest, Within lo y := by
  obtain ⟨z, rest, hall, hz, hz', hsub, hgap'⟩ :=
    joinAll_spec (n := blocks.length) le_rfl hx.2.1 (fun y hy => ⟨(hblocks y hy).2.1, hoff y hy⟩) hgap
  have hshort := hsub.length_le
  have hwithin := within_joinAll blocks.length hx hblocks
  have hmerge := mergeBlocks_blockAt isn blocks.length hx hblocks
  obtain ⟨hx1, hx2, hx3⟩ := hx
  rw [TcpRxBuffer.updateSackList, gt_seqAt (by omega) (by omega), decide_eq_true hn, if_pos rfl, List.length_map]
  rw [blockAt, hall] at hmerge
  rw [hall] at hwithin
  rw [hmerge, Option.map_some, List.length_map, List.length_cons]
  by_cases hfull : rest.length + 1 > 4
  · have hne : rest ≠ [] := fun h => by
      rw [h, List.length_nil] at hfull
      omega
    have hdrop := (List.dropLast_sublist rest).cons_cons z
    refine ⟨z, rest.dropLast, ?_, hz, hz', ?_, hgap'.sublist hdrop, fun y hy => hwithin y (hdrop.subset hy)⟩
    · rw [if_pos hfull, ← List.map_dropLast, List.dropLast_cons_of_ne_nil hne]
    · rw [List.length_cons, List.length_dropLast]
      omega
  · exact ⟨z, rest, by rw [if_neg hfull], hz, hz', not_lt.mp hfull, hgap', hwithin⟩

end Blocks

/-! ## Numbers near a position -/

theorem toInt_sub_seqAt {isn : SequenceNumber32} {f n : ℕ} (h : n ≤ f + 2 ^ 31) (h' : f < n + 2 ^ 31) :
    (sub (seqAt isn f) (seqAt isn n)).toInt = (f : ℤ) - n := by
  have hsub : (sub (seqAt isn f) (seqAt isn n)).toBitVec.toNat = (seqAt isn f - seqAt isn n).toNat :=
    congrArg UInt32.toNat (toUInt32_sub (seqAt isn f) (seqAt isn n))
  rw [UInt32.toNat_sub, toNat_seqAt, toNat_seqAt] at hsub
  have hn := isn.toNat_lt
  show (sub (seqAt isn f) (seqAt isn n)).toBitVec.toInt = _
  rw [BitVec.toInt_eq_toNat_cond, hsub]
  split_ifs <;> omega

/-- A number that is not before the first position of a range, and before its end, is that of a position in the range. -/
theorem exists_of_le_of_lt {isn a : SequenceNumber32} {x : ℕ × ℕ} {lo : ℕ} (hlo : 2 ^ 31 ≤ lo) (hx : Within lo x)
    (hle : le (seqAt isn x.1) a = true) (hlt : lt a (seqAt isn x.2) = true) :
    ∃ k, a = seqAt isn k ∧ x.1 ≤ k ∧ k < x.2 := by
  obtain ⟨hx, hxx, hx'⟩ := hx
  obtain ⟨k, hk, hk', rfl⟩ := exists_seqAt isn a (m := x.1) (by omega)
  rcases lt_or_ge k x.1 with hbefore | hge
  · rcases hk.eq_or_lt with hhalf | hnear
    · -- half of the circle before the first position is after the end
      have hwrap : seqAt isn k = seqAt isn (k + 2 ^ 32) := by
        rw [← UInt32.toNat_inj, toNat_seqAt, toNat_seqAt]
        omega
      rw [hwrap, lt_seqAt (by omega) (by omega), decide_eq_true_eq] at hlt
      omega
    · rw [le_seqAt hnear hk', decide_eq_true_eq] at hle
      omega
  · rw [lt_seqAt (by omega) (by omega), decide_eq_true_eq] at hlt
    exact ⟨k, rfl, hge, hlt⟩

namespace Placed

variable {isn : SequenceNumber32} {maxBuffer : UInt32} {slack r n f b : ℕ} {s : TcpRxBuffer} {l : List (List UInt8 × ℕ)}
  {x : ℕ × ℕ} {p : List UInt8} {sequenceNumber : SequenceNumber32} {t : ℕ × ℕ × List (List UInt8 × ℕ)}

variable (h : Placed isn maxBuffer slack s l r n)

include h

theorem fits_of_near (hmax : maxBuffer.toNat + slack < 2 ^ 30) (hr : 2 ^ 31 ≤ r)
    (hnear : (RxStep.add p sequenceNumber).Near slack s) :
    ∃ f, sequenceNumber = seqAt isn f ∧ Fits maxBuffer slack r n f (f + p.length) := by
  obtain ⟨hlen, hlate, hearly⟩ := hnear
  have hnext := h.next_le
  have hread := h.read_le
  obtain ⟨f, hf, hf', rfl⟩ := exists_seqAt isn sequenceNumber (m := n) (by omega)
  rw [h.next, toInt_sub_seqAt hf hf'] at hlate hearly
  rw [h.max] at hearly
  exact ⟨f, rfl, Nat.le_add_right _ _, by omega, hf', by omega, by omega, fun _ => by omega⟩

theorem exists_blocks : ∃ blocks : List (ℕ × ℕ), s.sackList = blocks.map (blockAt isn) ∧ ∀ y ∈ blocks, Listed l n y.1 y.2 := by
  obtain ⟨list, hlist⟩ : ∃ list, list = s.sackList := ⟨_, rfl⟩
  have hsacks := h.sacks
  rw [← hlist] at hsacks ⊢
  clear hlist
  induction list with
  | nil => exact ⟨[], rfl, List.forall_mem_nil _⟩
  | cons x rest ih =>
    obtain ⟨blocks, hblocks, hall⟩ := ih fun y hy => hsacks y (List.mem_cons_of_mem x hy)
    obtain ⟨c, d, hx, hcd⟩ := hsacks x List.mem_cons_self
    exact ⟨(c, d) :: blocks, by rw [List.map_cons, ← hblocks, hx]; rfl, List.forall_mem_cons.mpr ⟨hcd, hall⟩⟩

theorem within_of_listed (hmax : maxBuffer.toNat + slack < 2 ^ 30) (hx : Listed l n x.1 x.2) : Within n x := by
  have hread := h.read_le
  exact (mergeable_listed (fun q hq => (h.window q hq).2) (by omega)).lt hx

theorem start_eq_of_le (ht : Left p l f n b t) (hfn : f ≤ n) : t.1 = n := by
  have hnext := ht.next
  have hlt := ht.lt
  have hlast := ht.last
  rcases (ht.held n).mpr (.inr ⟨by omega, by omega⟩) with ⟨q, hq, hin⟩ | ⟨hle, -⟩
  · exact absurd ⟨q, ht.sublist.subset hq, hin⟩ h.missing
  · exact hle.antisymm hnext

theorem eq_of_mem_stored (ht : Left p l f n b t) {i : BufEntry} (hi : i ∈ encode isn (stored p f t)) (hnot : i ∉ s.data) :
    i.1 = seqAt isn t.1 ∧ i.1 + packetSize i.2 = seqAt isn t.2.1 := by
  obtain ⟨q, hq, rfl⟩ := List.mem_map.mp hi
  rcases mem_stored.mp hq with rfl | hq
  · exact ⟨rfl, by rw [seqAt_add_packetSize, stop_new ht]⟩
  · refine absurd ?_ hnot
    rw [h.data]
    exact List.mem_map.mpr ⟨q, ht.sublist.subset hq, rfl⟩

/-- **A new block overlaps none** of the list when no piece that is in a block is dropped. -/
theorem off_of_unlisted (hmax : maxBuffer.toNat + slack < 2 ^ 30) {a : ℕ} (hseg : Fits maxBuffer slack r n f (f + p.length))
    (hfit : Tracks.fit n maxBuffer l f (f + p.length) = (a, b)) (ht : Left p l f n b (trim a b l))
    (hnone : ∀ i ∈ s.embedded p (seqAt isn f), ∀ x ∈ s.sackList, ¬ (lt i.1 x.2 = true ∧ lt x.1 (i.1 + packetSize i.2) = true))
    (hx : Listed l n x.1 x.2) (hmem : blockAt isn x ∈ s.sackList) : Off ((trim a b l).1, (trim a b l).2.1) x := by
  have hread := h.read_le
  have hlt := ht.lt
  obtain ⟨hx1, hx2, hx3⟩ := h.within_of_listed hmax hx
  by_contra hover
  obtain ⟨hover, hover'⟩ := not_or.mp hover
  dsimp only at hover hover'
  obtain ⟨q, hq, hqi, hiq⟩ := hx.2.2 (Max.max x.1 (trim a b l).1) (by omega) (by omega)
  have hplace := h.place hq
  have hgone : q ∉ (trim a b l).2.2 := fun hq => by
    have hq := ht.apart q hq
    omega
  have hdata := h.removeOverlap_eq hmax hseg hfit
  have hembedded : (seqAt isn q.2, q.1) ∈ s.embedded p (seqAt isn f) := by
    rw [TcpRxBuffer.embedded, seqAt_add_size, h.fitWindow_eq hmax hseg, hfit]
    dsimp only
    rw [hdata, List.mem_filter, h.data]
    refine ⟨List.mem_map.mpr ⟨q, hq, rfl⟩, ?_⟩
    rw [Bool.not_eq_true', ← Bool.not_eq_true, List.contains_iff_mem]
    intro hmem
    obtain ⟨q', hq', heq⟩ := List.mem_map.mp hmem
    obtain ⟨hseq, hbytes⟩ := Prod.mk.inj heq
    have hplace' := h.place (ht.sublist.subset hq')
    rw [seqAt_inj (by omega) (by omega)] at hseq
    exact hgone (by rwa [← show q' = q from Prod.ext hbytes hseq])
  refine hnone _ hembedded _ hmem ⟨?_, ?_⟩
  · show lt (seqAt isn q.2) (seqAt isn x.2) = true
    rw [lt_seqAt (by omega) (by omega), decide_eq_true_eq]
    omega
  · show lt (seqAt isn x.1) (seqAt isn q.2 + packetSize q.1) = true
    rw [seqAt_add_packetSize, lt_seqAt (by omega) (by omega), decide_eq_true_eq]
    omega

end Placed

/-! ## Runs keep the list -/

structure Reports (isn : SequenceNumber32) (maxBuffer : UInt32) (slack : ℕ) (σ : RxRun) (l : List (List UInt8 × ℕ))
    (r n : ℕ) : Prop where
  placed : Placed isn maxBuffer slack σ.buffer l r n
  length : σ.buffer.sackList.length ≤ 4
  gaps : σ.buffer.sackList.Pairwise BlockGap
  first : ∀ i ∈ σ.stored, ∃ x ∈ σ.buffer.sackList.head?, le x.1 i.1 = true ∧ le (i.1 + packetSize i.2) x.2 = true

namespace Reports

variable {isn : SequenceNumber32} {maxBuffer : UInt32} {slack r n : ℕ} {σ : RxRun} {l : List (List UInt8 × ℕ)}
  {p : List UInt8} {f a b : ℕ}

section

variable (h : Reports isn maxBuffer slack σ l r n)

include h

theorem sackSpec (hmax : maxBuffer.toNat + slack < 2 ^ 30) (hr : 2 ^ 31 ≤ r) : SackSpec σ := by
  have hread := h.placed.read_le
  have hblock : ∀ x ∈ σ.buffer.sackList, ∃ y, x = blockAt isn y ∧ Listed l n y.1 y.2 ∧ Within n y := fun x hx => by
    obtain ⟨c, d, rfl, hcd⟩ := h.placed.sacks x hx
    exact ⟨(c, d), rfl, hcd, h.placed.within_of_listed (x := (c, d)) hmax hcd⟩
  refine ⟨h.length, fun x hx => ?_, h.gaps, fun x hx => ?_, fun x hx q hle hlt => ?_, h.first⟩
  · obtain ⟨y, rfl, -, hy, hyy, hy'⟩ := hblock x hx
    show lt (seqAt isn y.1) (seqAt isn y.2) = true
    rw [lt_seqAt (by omega) (by omega), decide_eq_true hyy]
  · obtain ⟨y, rfl, hlisted, hy, hyy, hy'⟩ := hblock x hx
    show gt (seqAt isn y.1) σ.buffer.nextRxSeq = true
    rw [h.placed.next, gt_seqAt (by omega) (by omega), decide_eq_true hlisted.1]
  · obtain ⟨y, rfl, hlisted, hy⟩ := hblock x hx
    obtain ⟨k, rfl, hk, hk'⟩ := exists_of_le_of_lt (by omega) hy hle hlt
    obtain ⟨p, hp, hpk, hkp⟩ := hlisted.2.2 k hk hk'
    have hplace := h.placed.place hp
    refine ⟨(seqAt isn p.2, p.1), h.placed.data ▸ List.mem_map.mpr ⟨p, hp, rfl⟩, ?_, ?_⟩
    · show le (seqAt isn p.2) (seqAt isn k) = true
      rw [le_seqAt (by omega) (by omega), decide_eq_true hpk]
    · show lt (seqAt isn k) (seqAt isn p.2 + packetSize p.1) = true
      rw [seqAt_add_packetSize, lt_seqAt (by omega) (by omega), decide_eq_true hkp]

/-- A segment beyond the byte that is missing: its block comes first. -/
theorem add_beyond (hmax : maxBuffer.toNat + slack < 2 ^ 30) (hlen : p.length < 2 ^ 31)
    (hseg : Fits maxBuffer slack r n f (f + p.length)) (hfit : Tracks.fit n maxBuffer l f (f + p.length) = (a, b))
    (hlt : (trim a b l).1 < (trim a b l).2.1) (hgap : n < (trim a b l).1)
    (hnone : ∀ i ∈ σ.buffer.embedded p (seqAt isn f), ∀ x ∈ σ.buffer.sackList,
      ¬ (lt i.1 x.2 = true ∧ lt x.1 (i.1 + packetSize i.2) = true)) :
    
    ∃ σ', σ.step (.add p (seqAt isn f)) = some σ' ∧ Reports isn maxBuffer slack σ' (stored p f (trim a b l)) r n := by
  have ht := h.placed.left hseg hfit hlt
  obtain ⟨s', hadd, hs', hsacks⟩ := h.placed.add_beyond hmax hlen hseg hfit hlt hgap
  obtain ⟨blocks, hblocks, hlisted⟩ := h.placed.exists_blocks
  have hwithin : ∀ y ∈ blocks, Within n y := fun y hy => h.placed.within_of_listed hmax (hlisted y hy)
  have hnew : Within n ((trim a b l).1, (trim a b l).2.1) := hs'.within_of_listed hmax
    ⟨hgap, hlt, fun i hi hi' => (Placed.held_stored ht i).mpr (.inr ⟨hi, hi'⟩)⟩
  have hoff : ∀ y ∈ blocks, Off ((trim a b l).1, (trim a b l).2.1) y := fun y hy =>
    h.placed.off_of_unlisted hmax hseg hfit ht hnone (hlisted y hy) (hblocks ▸ List.mem_map.mpr ⟨y, hy, rfl⟩)
  have hgaps := h.gaps
  have hlength := h.length
  rw [hblocks, pairwise_blockGap hwithin] at hgaps
  rw [hblocks, List.length_map] at hlength
  obtain ⟨z, rest, hupdate, hz, hz', hshort, hgaps', hwithin'⟩ :=
    updateSackList_blockAt isn hgap le_rfl hnew hwithin hoff hgaps hlength
  rw [← hblocks, hsacks] at hupdate
  have hlist := Option.some.inj hupdate
  refine ⟨_, by rw [RxRun.step, hadd, Option.map_some], ⟨hs', ?_, ?_, fun i hi => ?_⟩⟩
  · show s'.sackList.length ≤ 4
    rw [hlist, List.length_map]
    exact hshort
  · show s'.sackList.Pairwise BlockGap
    rw [hlist, pairwise_blockGap hwithin']
    exact hgaps'
  · obtain ⟨hi, hfilter⟩ := List.mem_filter.mp hi
    obtain ⟨-, hnot⟩ := Bool.and_eq_true_iff.mp hfilter
    rw [Bool.not_eq_true', ← Bool.not_eq_true, List.contains_iff_mem] at hnot
    obtain ⟨hfirst, hlast⟩ := h.placed.eq_of_mem_stored ht (hs'.data ▸ hi) hnot
    obtain ⟨hz1, hz2, hz3⟩ := hwithin' z List.mem_cons_self
    refine ⟨blockAt isn z, ?_, ?_, ?_⟩
    · show blockAt isn z ∈ s'.sackList.head?
      rw [hlist]
      rfl
    · show le (seqAt isn z.1) i.1 = true
      rw [hfirst, le_seqAt (by omega) (by omega), decide_eq_true hz]
    · show le (i.1 + packetSize i.2) (seqAt isn z.2) = true
      rw [hlast, le_seqAt (by omega) (by omega), decide_eq_true hz']

/-- The byte that is missing: blocks are taken from the list only. -/
theorem add_next (hmax : maxBuffer.toNat + slack < 2 ^ 30) (hlen : p.length < 2 ^ 31)
    (hseg : Fits maxBuffer slack r n f (f + p.length)) (hfit : Tracks.fit n maxBuffer l f (f + p.length) = (a, b))
    (hlt : (trim a b l).1 < (trim a b l).2.1) (hnogap : (trim a b l).1 = n) : ∃ σ', σ.step (.add p (seqAt isn f)) = some σ' ∧
      Reports isn maxBuffer slack σ' (stored p f (trim a b l)) r (follow n (stored p f (trim a b l))) := by
  have ht := h.placed.left hseg hfit hlt
  obtain ⟨s', hadd, hs', hnext, hsub⟩ := h.placed.add_next hmax hlen hseg hfit hlt hnogap
  have hwindow := hs'.next_le
  have hread := h.placed.read_le
  refine ⟨_, by rw [RxRun.step, hadd, Option.map_some], ⟨hs', hsub.length_le.trans h.length, h.gaps.sublist hsub,
    fun i hi => ?_⟩⟩
  obtain ⟨hi, hfilter⟩ := List.mem_filter.mp hi
  obtain ⟨hbeyond, hnot⟩ := Bool.and_eq_true_iff.mp hfilter
  rw [Bool.not_eq_true', ← Bool.not_eq_true, List.contains_iff_mem] at hnot
  obtain ⟨hfirst, -⟩ := h.placed.eq_of_mem_stored ht (hs'.data ▸ hi) hnot
  rw [hs'.next, hfirst, hnogap, gt_seqAt (by omega) (by omega), decide_eq_true_eq] at hbeyond
  omega

/-- **One step**: no assertion fails, and the list is as it is to be. -/
theorem step (hmax : maxBuffer.toNat + slack < 2 ^ 30) (hr : 2 ^ 31 ≤ r) {c : RxStep} (hnear : c.Near slack σ.buffer)
    (hunlisted : c.Unlisted σ.buffer) :
    ∃ σ', σ.step c = some σ' ∧ ∃ l' r' n', r ≤ r' ∧ Reports isn maxBuffer slack σ' l' r' n' := by
  cases c with
  | add p sequenceNumber =>
    obtain ⟨f, rfl, hseg⟩ := h.placed.fits_of_near hmax hr hnear
    have hlen : p.length < 2 ^ 31 := hnear.1.trans (by norm_num)
    obtain ⟨a, b, hfit⟩ : ∃ a b, Tracks.fit n maxBuffer l f (f + p.length) = (a, b) := ⟨_, _, rfl⟩
    rcases lt_or_ge (trim a b l).1 (trim a b l).2.1 with hlt | hnone
    · have ht := h.placed.left hseg hfit hlt
      rcases ht.next.eq_or_lt with hnogap | hgap
      · obtain ⟨σ', hσ', h'⟩ := h.add_next hmax hlen hseg hfit hlt hnogap.symm
        exact ⟨σ', hσ', _, _, _, le_rfl, h'⟩
      · have hembedded := hunlisted.resolve_left fun hle => by
          rw [h.placed.next, le_seqAt hseg.after hseg.before, decide_eq_true_eq] at hle
          exact absurd (h.placed.start_eq_of_le ht hle) hgap.ne'
        obtain ⟨σ', hσ', h'⟩ := h.add_beyond hmax hlen hseg hfit hlt hgap hembedded
        exact ⟨σ', hσ', _, _, _, le_rfl, h'⟩
    · have hadd : σ.step (.add p (seqAt isn f)) = some ⟨σ.buffer,
          σ.buffer.data.filter fun i => gt i.1 σ.buffer.nextRxSeq && ! σ.buffer.data.contains i⟩ := by
        rw [RxRun.step, h.placed.add_none hmax hseg hfit hnone, Option.map_some]
      refine ⟨_, hadd, l, r, n, le_rfl, ⟨h.placed, h.length, h.gaps, fun i hi => ?_⟩⟩
      obtain ⟨hi, hfilter⟩ := List.mem_filter.mp hi
      obtain ⟨-, hnot⟩ := Bool.and_eq_true_iff.mp hfilter
      rw [Bool.not_eq_true', ← Bool.not_eq_true, List.contains_iff_mem] at hnot
      exact absurd hi hnot
  | extract maxSize =>
    obtain ⟨out, s', l', hextract, hs', hsacks⟩ := h.placed.extract hmax maxSize
    refine ⟨_, by rw [RxRun.step, hextract, Option.map_some], l', _, n, Nat.le_add_right _ _, ⟨hs', ?_, ?_, ?_⟩⟩ <;>
      dsimp only <;> rw [hsacks]
    · exact h.length
    · exact h.gaps
    · exact h.first

end

theorem of_steps {isn : SequenceNumber32} (hmax : maxBuffer.toNat + slack < 2 ^ 30)
    (hσ : RxRun.Steps (fun s c => c.Near slack s ∧ c.Unlisted s) ⟨.create isn maxBuffer, []⟩ σ) :
    ∃ l r n, 2 ^ 31 ≤ r ∧ Reports (isn - UInt32.ofNat (2 ^ 31)) maxBuffer slack σ l r n := by
  induction hσ with
  | refl => exact ⟨[], _, _, le_rfl, Placed.create isn maxBuffer slack, Nat.zero_le _, List.Pairwise.nil,
      List.forall_mem_nil _⟩
  | tail _ hstep ih =>
    obtain ⟨l, r, n, hr, h⟩ := ih
    obtain ⟨c, ⟨hnear, hunlisted⟩, hc⟩ := hstep
    obtain ⟨σ', hσ', l', r', n', hle, h'⟩ := h.step hmax hr hnear hunlisted
    obtain rfl := Option.some.inj (hσ'.symm.trans hc)
    exact ⟨l', r', n', hr.trans hle, h'⟩

end Reports

/-- **The list that is reported**, in every run of segments near the window that drop no piece that is in a block: no
assertion fails, and the list is as it is to be. -/
theorem sackSpec_of_steps (isn : SequenceNumber32) (maxBuffer : UInt32) (slack : ℕ)
    (hmax : maxBuffer.toNat + slack < 2 ^ 30) (σ : RxRun)
    (hσ : RxRun.Steps (fun s c => c.Near slack s ∧ c.Unlisted s) ⟨.create isn maxBuffer, []⟩ σ) :
    SackSpec σ ∧ ∀ c : RxStep, c.Near slack σ.buffer → c.Unlisted σ.buffer → ∃ σ', σ.step c = some σ' ∧ SackSpec σ' := by
  obtain ⟨l, r, n, hr, h⟩ := Reports.of_steps hmax hσ
  refine ⟨h.sackSpec hmax hr, fun c hnear hunlisted => ?_⟩
  obtain ⟨σ', hσ', l', r', n', hle, h'⟩ := h.step hmax hr hnear hunlisted
  exact ⟨σ', hσ', h'.sackSpec hmax (hr.trans hle)⟩

/-- A segment out of order. -/
theorem sackSpec_of_steps_outOfOrder :
    (⟨.create 0 100, []⟩ : RxRun).step (.add [1, 2] 10) = some
        ⟨{ TcpRxBuffer.create 0 100 with sackList := [(10, 12)], size := 2, data := [(10, [1, 2])] }, [(10, [1, 2])]⟩ ∧
      SackSpec ⟨{ TcpRxBuffer.create 0 100 with sackList := [(10, 12)], size := 2, data := [(10, [1, 2])] },
        [(10, [1, 2])]⟩ := by
  have hstep : (⟨.create 0 100, []⟩ : RxRun).step (.add [1, 2] 10) = some
      ⟨{ TcpRxBuffer.create 0 100 with sackList := [(10, 12)], size := 2, data := [(10, [1, 2])] }, [(10, [1, 2])]⟩ := rfl
  refine ⟨hstep, (sackSpec_of_steps 0 100 0 (by decide) _ (.single ⟨.add [1, 2] 10, ⟨?_, ?_⟩, hstep⟩)).1⟩
  · exact ⟨by decide, by decide, by decide⟩
  · exact .inr (by decide)

/-- **A segment around a piece**: its block overlaps that of the piece. -/
theorem not_sackSpec_of_steps : ¬ ∀ (isn : SequenceNumber32) (maxBuffer : UInt32) (slack : ℕ),
    maxBuffer.toNat + slack < 2 ^ 30 → ∀ σ,
      RxRun.Steps (fun s c => c.Near slack s) ⟨.create isn maxBuffer, []⟩ σ → SackSpec σ := by
  intro h
  have hfirst : (⟨.create 0 100, []⟩ : RxRun).step (.add [1, 2] 10) = some
      ⟨{ TcpRxBuffer.create 0 100 with sackList := [(10, 12)], size := 2, data := [(10, [1, 2])] }, [(10, [1, 2])]⟩ := rfl
  have hsecond : RxRun.step
      ⟨{ TcpRxBuffer.create 0 100 with sackList := [(10, 12)], size := 2, data := [(10, [1, 2])] }, [(10, [1, 2])]⟩
        (.add [1, 2, 3, 4, 5, 6, 7] 8) = some
      ⟨{ TcpRxBuffer.create 0 100 with
          sackList := [(8, 15), (10, 12)], size := 7, data := [(8, [1, 2, 3, 4, 5, 6, 7])] },
        [(8, [1, 2, 3, 4, 5, 6, 7])]⟩ := rfl
  have hspec := h 0 100 0 (by decide) _ (.tail
    (.single ⟨.add [1, 2] 10, ⟨by decide, by decide, by decide⟩, hfirst⟩)
    ⟨.add [1, 2, 3, 4, 5, 6, 7] 8, ⟨by decide, by decide, by decide⟩, hsecond⟩)
  have hgap := (List.pairwise_cons.mp hspec.gaps).1 (10, 12) List.mem_cons_self
  exact absurd hgap (by unfold BlockGap; decide)

end Ns3Ndn.Internet
