import Ns3Ndn.Internet.TcpScoreboard

/-!
# The send buffer is the stream

The segments that were sent and the data that was not sent are the bytes that were added and not discarded yet. A copy
from a sequence number is the item with the bytes there, but not always: a request across the end of the sent data compares
numbers that may have wrapped, and a request from the middle of a segment may merge segments with different flags.

* `canCopy`: the condition; **`copyFromSequence_iff`**;
* **`run_stream`**: every state that is reached.
-/

namespace Ns3Ndn.Internet

open Network SequenceNumber32 SliceLib

namespace TcpTxBuffer

/-! ## Finding an item -/

/-- The items with one of the `m` bytes from byte `j` on. -/
def overlapping : ℕ → ℕ → List TcpTxItem → List TcpTxItem
  | _, _, [] => []
  | j, m, t :: rest =>
    if t.packet.length ≤ j then overlapping (j - t.packet.length) m rest
    else t :: if j + m ≤ t.packet.length then [] else overlapping 0 (j + m - t.packet.length) rest

def alike : List TcpTxItem → Bool
  | [] => true
  | t :: rest => rest.all fun u => u.lost == t.lost && u.sacked == t.sacked

def content (l : List TcpTxItem) : List UInt8 := (l.map TcpTxItem.packet).flatten

def sackedAt : ℕ → List TcpTxItem → List (ℕ × ℕ)
  | _, [] => []
  | i, t :: rest => if t.sacked then (i, t.id) :: sackedAt (i + t.packet.length) rest else sackedAt (i + t.packet.length) rest

section Find

variable {sent : Bool} {isn first : SequenceNumber32} {p q m fuel id : ℕ} {r : UInt32} {before rest l : List TcpTxItem}
  {t : TcpTxItem}

@[simp] theorem content_nil : content [] = [] := rfl

@[simp] theorem content_cons (t : TcpTxItem) (l : List TcpTxItem) : content (t :: l) = t.packet ++ content l := rfl

@[simp] theorem content_append (l l' : List TcpTxItem) : content (l ++ l') = content l ++ content l' := by
  rw [content, List.map_append, List.flatten_append]
  rfl

@[simp] theorem length_content (l : List TcpTxItem) : (content l).length = bytes l := by
  induction l with
  | nil => rfl
  | cons t l ih => rw [content_cons, List.length_append, ih, bytes_cons]

theorem sackedAt_append (i : ℕ) (l l' : List TcpTxItem) : sackedAt i (l ++ l') = sackedAt i l ++ sackedAt (i + bytes l) l' := by
  induction l generalizing i with
  | nil => rfl
  | cons t l ih =>
    rw [List.cons_append, sackedAt, sackedAt, ih, bytes_cons, Nat.add_assoc]
    split_ifs <;> rfl

theorem sackedAt_cons_of_not {t : TcpTxItem} (h : t.sacked = false) (i : ℕ) (l : List TcpTxItem) :
    sackedAt i (t :: l) = sackedAt (i + t.packet.length) l := by
  rw [sackedAt, h, if_neg Bool.false_ne_true]

theorem sackedAt_replace {x y : List TcpTxItem} (hx : ∀ t ∈ x, t.sacked = false) (hy : ∀ t ∈ y, t.sacked = false)
    (hbytes : bytes x = bytes y) (i : ℕ) (before after : List TcpTxItem) :
    sackedAt i (before ++ (x ++ after)) = sackedAt i (before ++ (y ++ after)) := by
  have hnone : ∀ {z : List TcpTxItem}, (∀ t ∈ z, t.sacked = false) → ∀ i, sackedAt i z = [] := by
    intro z hz
    induction z with
    | nil => exact fun _ => rfl
    | cons t z ih =>
      intro i
      rw [sackedAt_cons_of_not (hz t List.mem_cons_self), ih fun u hu => hz u (List.mem_cons_of_mem t hu)]
  rw [sackedAt_append, sackedAt_append, sackedAt_append, sackedAt_append, hnone hx, hnone hy, hbytes]

theorem overlapping_append {j : ℕ} (m : ℕ) (before l : List TcpTxItem) (h : bytes before ≤ j) :
    overlapping j m (before ++ l) = overlapping (j - bytes before) m l := by
  induction before generalizing j with
  | nil => rfl
  | cons t before ih =>
    rw [bytes_cons] at h
    rw [List.cons_append, overlapping, if_pos (by omega), ih (by omega), bytes_cons, Nat.sub_sub]

/-- The assertion of the walk holds. -/
theorem not_assert_fails (hassert : sent = true → ge t.startSeq first = true) : ¬ (sent && ! ge t.startSeq first) = true := by
  intro h
  obtain ⟨hsent, hge⟩ := Bool.and_eq_true_iff.mp h
  rw [hassert hsent] at hge
  exact Bool.false_ne_true hge

theorem walk_pass {n start seq : UInt32} {acc : List TcpTxItem} (hassert : sent = true → ge t.startSeq first = true)
    (hpass : lt seq (start + t.size) = false) (l : List TcpTxItem) :
    walk sent first n seq r id acc start (t :: l) = walk sent first n seq r id (acc ++ [t]) (start + t.size) l := by
  rw [walk.eq_def]
  dsimp only
  rw [if_neg (not_assert_fails hassert), hpass, if_neg Bool.false_ne_true]

theorem walk_skip (isn : SequenceNumber32) (r : UInt32) (id : ℕ) (hassert : sent = true → ∀ u ∈ before, ge u.startSeq first = true) (hq : p + bytes before ≤ q)
    (hq' : q < p + 2 ^ 31) (acc l : List TcpTxItem) (n : UInt32) :
    walk sent first n (seqAt isn q) r id acc (seqAt isn p) (before ++ l) =
      walk sent first n (seqAt isn q) r id (acc ++ before) (seqAt isn (p + bytes before)) l := by
  induction before generalizing acc p with
  | nil => rw [List.append_nil, bytes_nil, Nat.add_zero, List.nil_append]
  | cons t before ih =>
    rw [bytes_cons] at hq
    have hend : seqAt isn p + t.size = seqAt isn (p + t.packet.length) := seqAt_add isn p _
    have hpass : lt (seqAt isn q) (seqAt isn p + t.size) = false := by
      rw [hend, lt_seqAt (by omega) (by omega), decide_eq_false_iff_not]
      omega
    rw [List.cons_append, walk_pass (fun hsent => hassert hsent t List.mem_cons_self) hpass, hend,
      ih (fun hsent u hu => hassert hsent u (List.mem_cons_of_mem t hu)) (by omega) (by omega), bytes_cons, Nat.add_assoc,
      List.append_assoc, List.singleton_append]

theorem walk_here (isn : SequenceNumber32) (r : UInt32) (id : ℕ) {acc : List TcpTxItem} (hassert : sent = true → ge t.startSeq first = true) (hm : 0 < m)
    (hle : m ≤ t.packet.length) (hlt : t.packet.length < 2 ^ 31) (l : List TcpTxItem) :
    ∃ f, walk sent first (UInt32.ofNat m) (seqAt isn p) r id acc (seqAt isn p) (t :: l) = some (.found f) ∧
      f.item.packet = t.packet.take m ∧ f.item.startSeq = t.startSeq ∧ f.item.lost = t.lost ∧ f.item.sacked = t.sacked ∧
      f.item.retrans = t.retrans ∧
      (t.sacked = false → ∀ i, sackedAt i f.list = sackedAt i (acc ++ t :: l)) := by
  have hend : seqAt isn p + t.size = seqAt isn (p + t.packet.length) := seqAt_add isn p _
  have hin : lt (seqAt isn p) (seqAt isn p + t.size) = true := by
    rw [hend, lt_seqAt (by omega) (by omega), decide_eq_true_eq]
    omega
  have hreach : le (seqAt isn p + UInt32.ofNat m) (seqAt isn p + t.size) = true := by
    rw [hend, seqAt_add, le_seqAt (by omega) (by omega), decide_eq_true_eq]
    omega
  have hequal : (UInt32.ofNat m == t.size) = decide (m = t.packet.length) := beq_ofNat (by omega) (by omega)
  rw [walk.eq_def]
  dsimp only
  rw [if_neg (not_assert_fails hassert), if_pos hin, if_pos (beq_self_eq_true _), if_pos hreach, hequal]
  by_cases heq : m = t.packet.length
  · rw [decide_eq_true heq, if_pos rfl]
    exact ⟨_, rfl, (by rw [heq, List.take_length]), rfl, rfl, rfl, rfl, fun _ _ => rfl⟩
  · have hless : UInt32.ofNat m < t.size := (ofNat_lt_ofNat (by omega) (by omega)).mpr (by omega)
    rw [decide_eq_false heq, if_neg Bool.false_ne_true, if_pos hless, TcpTxItem.split, fragmentOf]
    have htonat : (UInt32.ofNat m).toNat = m := UInt32.toNat_ofNat_of_lt' (show m < 2 ^ 32 by omega)
    rw [htonat, if_pos (by show 0 + m ≤ _; omega), Option.map_some, Option.map_some]
    refine ⟨_, rfl, (by simp [slice]), rfl, rfl, rfl, rfl, fun hsacked i => ?_⟩
    refine sackedAt_replace (x := [_, _]) (y := [t]) ?_ (List.forall_mem_singleton.mpr hsacked) ?_ i acc l
    · exact List.forall_mem_cons.mpr ⟨hsacked, List.forall_mem_singleton.mpr hsacked⟩
    · rw [bytes_cons, bytes_cons, bytes_cons]
      show (slice t.packet 0 (0 + m)).length + ((t.packet.drop m).length + 0) = t.packet.length + 0
      rw [length_slice (by omega), List.length_drop]
      omega

variable {next : TcpTxItem}

theorem walk_merge (isn : SequenceNumber32) (r : UInt32) (id : ℕ) {acc : List TcpTxItem} (hassert : sent = true → ge t.startSeq first = true)
    (hne : t.packet ≠ []) (hgt : t.packet.length < m) (hm : m < 2 ^ 31) (l : List TcpTxItem) :
    walk sent first (UInt32.ofNat m) (seqAt isn p) r id acc (seqAt isn p) (t :: next :: l) =
      (t.merge next r).map fun r => .again (acc ++ r.1 :: l) r.2 id := by
  have hend : seqAt isn p + t.size = seqAt isn (p + t.packet.length) := seqAt_add isn p _
  have hpos := List.length_pos_iff.mpr hne
  have hin : lt (seqAt isn p) (seqAt isn p + t.size) = true := by
    rw [hend, lt_seqAt (by omega) (by omega), decide_eq_true_eq]
    omega
  have hreach : ¬ le (seqAt isn p + UInt32.ofNat m) (seqAt isn p + t.size) = true := by
    rw [hend, seqAt_add, le_seqAt (by omega) (by omega), decide_eq_true_eq]
    omega
  rw [walk.eq_def]
  dsimp only
  rw [if_neg (not_assert_fails hassert), if_pos hin, if_pos (beq_self_eq_true _), if_neg hreach]

theorem merge_of_alike (h : (next.lost == t.lost && next.sacked == t.sacked) = true) (r : UInt32) :
    ∃ r', t.merge next r =
      some ({ t with packet := t.packet ++ next.packet, retrans := t.retrans && next.retrans }, r') := by
  obtain ⟨hlost, hsacked⟩ := Bool.and_eq_true_iff.mp h
  have hsome : (t.merge next r).isSome = true := by
    rw [TcpTxItem.merge, beq_iff_eq.mp hlost, beq_iff_eq.mp hsacked, beq_self_eq_true, beq_self_eq_true, Bool.and_true,
      if_pos rfl]
    rfl
  obtain ⟨⟨t', r'⟩, hmerge⟩ := Option.isSome_iff_exists.mp hsome
  obtain ⟨-, -, rfl, -⟩ := merge_eq hmerge
  exact ⟨r', hmerge⟩

theorem merge_of_not_alike (h : (next.lost == t.lost && next.sacked == t.sacked) = false) (r : UInt32) :
    t.merge next r = none := by
  cases hmerge : t.merge next r with
  | none => rfl
  | some m =>
    obtain ⟨hsacked, hlost, -, -⟩ := merge_eq hmerge
    rw [hsacked, hlost, beq_self_eq_true, beq_self_eq_true] at h
    exact absurd h (by decide)

theorem alike_cons_cons {u : TcpTxItem} {l : List TcpTxItem} :
    alike (t :: u :: l) = ((u.lost == t.lost && u.sacked == t.sacked) && alike (t :: l)) := rfl

/-- **The item at the number**, merged with those behind it. -/
theorem getPacketFromList_here (isn : SequenceNumber32) (p fuel id : ℕ) (r : UInt32)
    (hassert : sent = true → ∀ u ∈ before ++ [t], ge u.startSeq first = true)
    (hne : ∀ u ∈ t :: rest, u.packet ≠ []) (hm : 0 < m) (hle : m ≤ t.packet.length + bytes rest)
    (hbound : bytes before + t.packet.length + bytes rest < 2 ^ 31) (hfuel : rest.length < fuel) :
    (alike (overlapping 0 m (t :: rest)) = true → ∃ f, getPacketFromList sent first (seqAt isn p) (UInt32.ofNat m)
        (seqAt isn (p + bytes before)) fuel (before ++ t :: rest) r id = some f ∧
      f.item.packet = (t.packet ++ content rest).take m ∧ f.item.startSeq = t.startSeq ∧
      (∀ u ∈ overlapping 0 m (t :: rest), f.item.lost = u.lost ∧ f.item.sacked = u.sacked) ∧
      f.item.retrans = (overlapping 0 m (t :: rest)).all TcpTxItem.retrans ∧
      (t.sacked = false → ∀ i, sackedAt i f.list = sackedAt i (before ++ t :: rest))) ∧
    (alike (overlapping 0 m (t :: rest)) = false → getPacketFromList sent first (seqAt isn p) (UInt32.ofNat m)
      (seqAt isn (p + bytes before)) fuel (before ++ t :: rest) r id = none) := by
  induction fuel generalizing t rest r with
  | zero => omega
  | succ fuel ih =>
    have hpos := List.length_pos_iff.mpr (hne t List.mem_cons_self)
    have hskip := walk_skip isn r id (fun hsent u hu => hassert hsent u (List.mem_append_left _ hu))
      (le_refl (p + bytes before)) (show p + bytes before < p + 2 ^ 31 by omega) [] (t :: rest) (UInt32.ofNat m)
    have hassertt : sent = true → ge t.startSeq first = true := fun hsent =>
      hassert hsent t (List.mem_append_right _ (List.mem_singleton_self t))
    rw [getPacketFromList, hskip, List.nil_append, overlapping, if_neg (by omega), Nat.zero_add]
    by_cases hall : m ≤ t.packet.length
    · obtain ⟨f, hf, hpacket, hstart, hlost, hsacked, hretrans, hplaces⟩ := walk_here (p := p + bytes before) isn r id
        hassertt hm hall (by omega) rest
      rw [hf, if_pos hall]
      refine ⟨fun _ => ⟨f, rfl, ?_, hstart, List.forall_mem_singleton.mpr ⟨hlost, hsacked⟩, ?_, hplaces⟩, fun h => ?_⟩
      · rw [hpacket, List.take_append_of_le_length hall]
      · rw [hretrans, List.all_cons, List.all_nil, Bool.and_true]
      · cases (show true = false from h)
    · rw [if_neg hall]
      cases rest with
      | nil =>
        rw [bytes_nil] at hle
        omega
      | cons next rest =>
        rw [bytes_cons] at hle hbound
        rw [List.length_cons] at hfuel
        rw [walk_merge isn r id hassertt (hne t List.mem_cons_self) (by omega) (by omega)]
        have hnext := List.length_pos_iff.mpr (hne next (List.mem_cons_of_mem t List.mem_cons_self))
        rw [overlapping, if_neg (by omega), Nat.zero_add, alike_cons_cons]
        cases hflags : (next.lost == t.lost && next.sacked == t.sacked)
        · rw [merge_of_not_alike hflags]
          exact ⟨fun h => absurd h Bool.false_ne_true, fun _ => rfl⟩
        · obtain ⟨r', hmerge⟩ := merge_of_alike hflags r
          obtain ⟨hlost, hsacked⟩ := Bool.and_eq_true_iff.mp hflags
          rw [hmerge, Option.map_some, Option.bind_some, Bool.true_and]
          generalize ht' : ({ t with packet := t.packet ++ next.packet, retrans := t.retrans && next.retrans } : TcpTxItem) = t'
          have hpacket' : t'.packet = t.packet ++ next.packet := by rw [← ht']
          have hlength' : t'.packet.length = t.packet.length + next.packet.length := by rw [hpacket', List.length_append]
          have hstart' : t'.startSeq = t.startSeq := by rw [← ht']
          have hflags' : t'.lost = t.lost ∧ t'.sacked = t.sacked := by rw [← ht']; exact ⟨rfl, rfl⟩
          have hretrans' : t'.retrans = (t.retrans && next.retrans) := by rw [← ht']
          have hassert' : sent = true → ∀ u ∈ before ++ [t'], ge u.startSeq first = true := by
            intro hsent u hu
            rcases List.mem_append.mp hu with hu | hu
            · exact hassert hsent u (List.mem_append_left _ hu)
            · rw [List.mem_singleton.mp hu, hstart']
              exact hassertt hsent
          have hne' : ∀ u ∈ t' :: rest, u.packet ≠ [] := by
            refine List.forall_mem_cons.mpr ⟨?_, fun u hu => hne u (List.mem_cons_of_mem _ (List.mem_cons_of_mem _ hu))⟩
            rw [← List.length_pos_iff, hlength']
            omega
          obtain ⟨hih, hih'⟩ := ih r' hassert' hne' (by omega) (by omega) (by omega)
          rw [overlapping, if_neg (by omega), Nat.zero_add, hlength', ← Nat.sub_sub] at hih hih'
          have hend : (m ≤ t.packet.length + next.packet.length) ↔ m - t.packet.length ≤ next.packet.length := by omega
          simp only [hend] at hih hih'
          generalize (if m - t.packet.length ≤ next.packet.length then [] else
            overlapping 0 (m - t.packet.length - next.packet.length) rest) = behind at hih hih' ⊢
          have halike : alike (t' :: behind) = alike (t :: behind) := by rw [alike, alike, hflags'.1, hflags'.2]
          rw [halike] at hih hih'
          refine ⟨fun h => ?_, hih'⟩
          obtain ⟨f, hf, hpacket, hstart, hsame, hretrans, hplaces⟩ := hih h
          refine ⟨f, hf, ?_, hstart.trans hstart', ?_, ?_, fun hnot i => ?_⟩
          · rw [hpacket, hpacket', content_cons, List.append_assoc]
          · have ht := hsame t' List.mem_cons_self
            rw [hflags'.1, hflags'.2] at ht
            refine List.forall_mem_cons.mpr ⟨ht, List.forall_mem_cons.mpr ⟨?_, fun u hu => hsame u (List.mem_cons_of_mem _ hu)⟩⟩
            rwa [beq_iff_eq.mp hlost, beq_iff_eq.mp hsacked]
          · rw [hretrans, List.all_cons, List.all_cons, List.all_cons, hretrans', Bool.and_assoc]
          · have hnot' : t'.sacked = false := hflags'.2.trans hnot
            rw [hplaces hnot']
            refine sackedAt_replace (x := [t']) (y := [t, next]) (List.forall_mem_singleton.mpr hnot') ?_ ?_ i before rest
            · exact List.forall_mem_cons.mpr ⟨hnot, List.forall_mem_singleton.mpr ((beq_iff_eq.mp hsacked).trans hnot)⟩
            · rw [bytes_cons, bytes_cons, bytes_cons, hlength', Nat.add_assoc]

theorem walk_split (isn : SequenceNumber32) (r : UInt32) (id : ℕ) (acc : List TcpTxItem) {k : ℕ}
    (hassert : sent = true → ge t.startSeq first = true) (hk : 0 < k) (hlt : k < t.packet.length)
    (hbound : t.packet.length < 2 ^ 31) (n : UInt32) (l : List TcpTxItem) :
    walk sent first n (seqAt isn (p + k)) r id acc (seqAt isn p) (t :: l) =
      some (.again (acc ++ { t with id := id, packet := t.packet.take k } ::
        { t with packet := t.packet.drop k, startSeq := t.startSeq + UInt32.ofNat k } :: l) r (id + 1)) := by
  have hend : seqAt isn p + t.size = seqAt isn (p + t.packet.length) := seqAt_add isn p _
  have hin : lt (seqAt isn (p + k)) (seqAt isn p + t.size) = true := by
    rw [hend, lt_seqAt (by omega) (by omega), decide_eq_true_eq]
    omega
  have hother : ¬ (seqAt isn (p + k) == seqAt isn p) = true := by
    rw [beq_seqAt (by omega) (by omega), decide_eq_true_eq]
    omega
  have hinside : gt (seqAt isn (p + k)) (seqAt isn p) = true := by
    rw [gt_seqAt (by omega) (by omega), decide_eq_true_eq]
    omega
  have htonat : (UInt32.ofNat k).toNat = k := UInt32.toNat_ofNat_of_lt' (show k < 2 ^ 32 by omega)
  rw [walk.eq_def]
  dsimp only
  rw [if_neg (not_assert_fails hassert), if_pos hin, if_neg hother, if_pos hinside, toUInt32_sub, seqAt_sub_seqAt (by omega),
    Nat.add_sub_cancel_left, TcpTxItem.split, fragmentOf, htonat, if_pos (by show 0 + k ≤ _; omega), Option.map_some,
    Option.map_some]
  simp [slice]

theorem starts_mem {l : List TcpTxItem} (h : Starts isn p l) {u : TcpTxItem} (hu : u ∈ l) :
    ∃ k, k + u.packet.length ≤ bytes l ∧ u.startSeq = seqAt isn (p + k) := by
  induction l generalizing p with
  | nil => cases hu
  | cons t l ih =>
    rw [bytes_cons]
    rcases List.mem_cons.mp hu with rfl | hu
    · exact ⟨0, by omega, h.1⟩
    · obtain ⟨k, hk, heq⟩ := ih h.2 hu
      exact ⟨t.packet.length + k, by omega, by rw [heq, Nat.add_assoc]⟩

theorem exists_item_at {l : List TcpTxItem} {j : ℕ} (h : j < bytes l) : ∃ before t rest, l = before ++ t :: rest ∧
    bytes before ≤ j ∧ j < bytes before + t.packet.length := by
  induction l generalizing j with
  | nil => exact absurd h (Nat.not_lt_zero j)
  | cons t l ih =>
    rw [bytes_cons] at h
    by_cases hlt : j < t.packet.length
    · exact ⟨[], t, l, rfl, Nat.zero_le j, by rwa [bytes_nil, Nat.zero_add]⟩
    · obtain ⟨before, u, rest, rfl, hle, hlt'⟩ := ih (show j - t.packet.length < bytes l by omega)
      exact ⟨t :: before, u, rest, rfl, by rw [bytes_cons]; omega, by rw [bytes_cons]; omega⟩

/-- **Finding an item**: it has the bytes from the number on, just when the items there can be merged. -/
theorem getPacketFromList_eq (sent : Bool) (isn first : SequenceNumber32) (p j fuel id : ℕ) (r : UInt32) (hstart : sent = true → Starts isn p l ∧ first = seqAt isn p)
    (hne : ∀ u ∈ l, u.packet ≠ []) (hm : 0 < m) (hle : j + m ≤ bytes l) (hbound : bytes l < 2 ^ 31)
    (hfuel : l.length + 2 ≤ fuel) :
    (alike (overlapping j m l) = true → ∃ f, getPacketFromList sent first (seqAt isn p) (UInt32.ofNat m)
        (seqAt isn (p + j)) fuel l r id = some f ∧
      f.item.packet = ((content l).drop j).take m ∧ (sent = true → f.item.startSeq = seqAt isn (p + j)) ∧
      (∀ u ∈ overlapping j m l, f.item.lost = u.lost ∧ f.item.sacked = u.sacked) ∧
      f.item.retrans = (overlapping j m l).all TcpTxItem.retrans ∧
      ((∀ u ∈ overlapping j m l, u.sacked = false) → ∀ i, sackedAt i f.list = sackedAt i l)) ∧
    (alike (overlapping j m l) = false → getPacketFromList sent first (seqAt isn p) (UInt32.ofNat m)
      (seqAt isn (p + j)) fuel l r id = none) := by
  obtain ⟨before, t, rest, rfl, hbefore, hj⟩ := exists_item_at (show j < bytes l by omega)
  have hassert : sent = true → ∀ k ≤ bytes (before ++ t :: rest), ge (seqAt isn (p + k)) first = true := by
    intro hsent k hk
    rw [(hstart hsent).2, ge_seqAt (by omega) (by omega), decide_eq_true_eq]
    omega
  have hassert' : sent = true → ∀ u ∈ before ++ t :: rest, ge u.startSeq first = true := by
    intro hsent u hu
    obtain ⟨k, hk, heq⟩ := starts_mem (hstart hsent).1 hu
    rw [heq]
    exact hassert hsent k (by omega)
  have htstart : sent = true → t.startSeq = seqAt isn (p + bytes before) := fun hsent =>
    (starts_append.mp (hstart hsent).1).2.1
  rw [bytes_append, bytes_cons] at hle hbound
  rw [List.length_append, List.length_cons] at hfuel
  have hne' : ∀ u ∈ t :: rest, u.packet ≠ [] := fun u hu => hne u (List.mem_append_right _ hu)
  rw [overlapping_append m before (t :: rest) hbefore, content_append, content_cons]
  obtain ⟨k, rfl⟩ : ∃ k, j = bytes before + k := ⟨j - bytes before, by omega⟩
  rw [Nat.add_sub_cancel_left, ← length_content before, List.drop_length_add_append, length_content before]
  rcases Nat.eq_zero_or_pos k with rfl | hk
  · have hhead : sent = true → ∀ u ∈ before ++ [t], ge u.startSeq first = true := by
      intro hsent u hu
      refine hassert' hsent u ((List.mem_append.mp hu).elim (List.mem_append_left _) fun hu => ?_)
      rw [List.mem_singleton.mp hu]
      exact List.mem_append_right _ List.mem_cons_self
    rw [Nat.add_zero, List.drop_zero]
    obtain ⟨hfound, hnone⟩ := getPacketFromList_here isn p fuel id r hhead hne' hm
      (by omega) (by omega) (by omega)
    refine ⟨fun h => ?_, hnone⟩
    obtain ⟨f, hf, hpacket, hstart', hsame, hretrans, hplaces⟩ := hfound h
    refine ⟨f, hf, hpacket, fun hsent => hstart'.trans (htstart hsent), hsame, hretrans, fun hnot => hplaces (hnot t ?_)⟩
    rw [overlapping, if_neg (by omega)]
    exact List.mem_cons_self
  · obtain ⟨fuel, rfl⟩ : ∃ n, fuel = n + 1 := ⟨fuel - 1, by omega⟩
    have hskip := walk_skip isn r id (fun hsent u hu => hassert' hsent u (List.mem_append_left _ hu))
      (show p + bytes before ≤ p + (bytes before + k) by omega) (show p + (bytes before + k) < p + 2 ^ 31 by omega) []
      (t :: rest) (UInt32.ofNat m)
    have hsplit := walk_split (p := p + bytes before) (k := k) isn r id before
      (fun hsent => hassert' hsent t (List.mem_append_right _ List.mem_cons_self)) hk (by omega) (by omega)
      (UInt32.ofNat m) rest
    generalize ha : ({ t with id := id, packet := t.packet.take k } : TcpTxItem) = a at hsplit
    generalize hb : ({ t with packet := t.packet.drop k, startSeq := t.startSeq + UInt32.ofNat k } : TcpTxItem) = b at hsplit
    have habytes : bytes (before ++ [a]) = bytes before + k := by
      rw [bytes_append, bytes_cons, bytes_nil, ← ha, List.length_take, min_eq_left (by omega), Nat.add_zero]
    have hblength : b.packet.length = t.packet.length - k := by rw [← hb, List.length_drop]
    have hbpacket : b.packet = t.packet.drop k := by rw [← hb]
    have hbflags : b.lost = t.lost ∧ b.sacked = t.sacked ∧ b.retrans = t.retrans := by rw [← hb]; exact ⟨rfl, rfl, rfl⟩
    have hbstart : sent = true → b.startSeq = seqAt isn (p + (bytes before + k)) := by
      intro hsent
      rw [← hb, ← Nat.add_assoc, ← seqAt_add, ← htstart hsent]
    have hhead : sent = true → ∀ u ∈ (before ++ [a]) ++ [b], ge u.startSeq first = true := by
      intro hsent u hu
      simp only [List.mem_append, List.mem_singleton] at hu
      rcases hu with (hu | rfl) | rfl
      · exact hassert' hsent u (List.mem_append_left _ hu)
      · rw [← ha]
        exact hassert' hsent t (List.mem_append_right _ List.mem_cons_self)
      · rw [hbstart hsent]
        refine hassert hsent (bytes before + k) ?_
        rw [bytes_append, bytes_cons]
        omega
    have hneb : ∀ u ∈ b :: rest, u.packet ≠ [] := by
      refine List.forall_mem_cons.mpr ⟨?_, fun u hu => hne' u (List.mem_cons_of_mem t hu)⟩
      rw [← List.length_pos_iff, hblength]
      omega
    obtain ⟨hfound, hnone⟩ := getPacketFromList_here isn p fuel (id + 1) r hhead
      hneb hm (by omega) (by omega) (by omega)
    have hget : getPacketFromList sent first (seqAt isn p) (UInt32.ofNat m) (seqAt isn (p + (bytes before + k))) (fuel + 1)
        (before ++ t :: rest) r id = getPacketFromList sent first (seqAt isn p) (UInt32.ofNat m)
          (seqAt isn (p + bytes (before ++ [a]))) fuel ((before ++ [a]) ++ b :: rest) r (id + 1) := by
      rw [getPacketFromList, hskip, List.nil_append, ← Nat.add_assoc, hsplit, Option.bind_some, habytes, Nat.add_assoc,
        List.append_assoc, List.singleton_append]
    have hend : (k + m ≤ t.packet.length) ↔ m ≤ b.packet.length := by omega
    have hrest : k + m - t.packet.length = m - b.packet.length := by omega
    rw [overlapping, if_neg (by omega), Nat.zero_add] at hfound hnone
    rw [hget, overlapping, if_neg (by omega), hrest, List.drop_append_of_le_length (by omega), ← hbpacket]
    simp only [hend]
    generalize (if m ≤ b.packet.length then [] else overlapping 0 (m - b.packet.length) rest) = behind at hfound hnone ⊢
    have halike : alike (b :: behind) = alike (t :: behind) := by rw [alike, alike, hbflags.1, hbflags.2.1]
    rw [halike] at hfound hnone
    refine ⟨fun h => ?_, hnone⟩
    obtain ⟨f, hf, hpacket, hstart', hsame, hretrans, hplaces⟩ := hfound h
    refine ⟨f, hf, hpacket, fun hsent => hstart'.trans (hbstart hsent), List.forall_mem_cons.mpr ⟨?_, fun u hu =>
      hsame u (List.mem_cons_of_mem b hu)⟩, ?_, fun hnot i => ?_⟩
    · rw [← hbflags.1, ← hbflags.2.1]
      exact hsame b List.mem_cons_self
    · rw [hretrans, List.all_cons, List.all_cons, hbflags.2.2]
    · have hnot' : t.sacked = false := hnot t List.mem_cons_self
      rw [hplaces (hbflags.2.1.trans hnot'), List.append_assoc]
      refine sackedAt_replace (x := [a, b]) (y := [t]) ?_ (List.forall_mem_singleton.mpr hnot') ?_ i before rest
      · refine List.forall_mem_cons.mpr ⟨?_, List.forall_mem_singleton.mpr (hbflags.2.1.trans hnot')⟩
        rw [← ha]
        exact hnot'
      · have halength : a.packet.length = k := by rw [← ha, List.length_take, min_eq_left (by omega)]
        rw [bytes_cons, bytes_cons, bytes_cons, bytes_nil, halength, hblength]
        omega

/-! ## The limit of a retransmission -/

theorem not_start_before {l : List TcpTxItem} (h : Starts isn p l) (hne : ∀ u ∈ l, u.packet ≠ []) {j : ℕ}
    (hj : bytes l ≤ j) (hbound : j < 2 ^ 31) : ∀ u ∈ l, ¬ (u.startSeq == seqAt isn (p + j)) = true := by
  intro u hu
  obtain ⟨k, hk, heq⟩ := starts_mem h hu
  have hpos := List.length_pos_iff.mpr (hne u hu)
  rw [heq, beq_seqAt (by omega) (by omega), decide_eq_true_eq]
  omega

theorem find_start (h : Starts isn p (before ++ t :: rest)) (hne : ∀ u ∈ before, u.packet ≠ [])
    (hbound : bytes before < 2 ^ 31) :
    ((before ++ t :: rest).find? fun u => u.startSeq == seqAt isn (p + bytes before)) = some t := by
  obtain ⟨hbefore, ht, -⟩ := starts_append.mp h
  have hnone := List.find?_eq_none.mpr (not_start_before hbefore hne le_rfl hbound)
  rw [List.find?_append, hnone, Option.none_or]
  exact List.find?_cons_of_pos (beq_iff_eq.mpr ht)

theorem find_no_start (h : Starts isn p (before ++ t :: rest)) (hne : ∀ u ∈ before, u.packet ≠ []) {k : ℕ} (hk : 0 < k)
    (hlt : k < t.packet.length) (hbound : bytes before + t.packet.length + bytes rest < 2 ^ 31) :
    ((before ++ t :: rest).find? fun u => u.startSeq == seqAt isn (p + (bytes before + k))) = none := by
  obtain ⟨hbefore, ht, hrest⟩ := starts_append.mp h
  refine List.find?_eq_none.mpr fun u hu => ?_
  rcases List.mem_append.mp hu with hu | hu
  · exact not_start_before hbefore hne (Nat.le_add_right _ k) (by omega) u hu
  · rcases List.mem_cons.mp hu with rfl | hu
    · rw [ht, beq_seqAt (by omega) (by omega), decide_eq_true_eq]
      omega
    · obtain ⟨i, hi, heq⟩ := starts_mem hrest hu
      rw [heq, beq_seqAt (by omega) (by omega), decide_eq_true_eq]
      omega

theorem limitBytes_of_find {n : UInt32} {seq : SequenceNumber32} {l : List TcpTxItem}
    (h : (l.find? fun u => u.startSeq == seq) = none) : limitBytes n seq l = n := by
  induction l with
  | nil => rfl
  | cons t l ih =>
    rw [List.find?_cons] at h
    rw [limitBytes.eq_def]
    dsimp only
    cases heq : (t.startSeq == seq)
    · rw [heq] at h
      rw [if_neg Bool.false_ne_true, ih h]
    · rw [heq] at h
      cases h

theorem limitBytes_append {n : UInt32} {seq : SequenceNumber32} (h : ∀ u ∈ before, ¬ (u.startSeq == seq) = true)
    (l : List TcpTxItem) : limitBytes n seq (before ++ l) = limitBytes n seq l := by
  induction before with
  | nil => rfl
  | cons t before ih =>
    rw [List.cons_append, limitBytes.eq_def]
    dsimp only
    rw [if_neg (h t List.mem_cons_self), ih fun u hu => h u (List.mem_cons_of_mem t hu)]

theorem min_ofNat {i j : ℕ} (hi : i < 2 ^ 32) (hj : j < 2 ^ 32) :
    min (UInt32.ofNat i) (UInt32.ofNat j) = UInt32.ofNat (min i j) := by
  show (if UInt32.ofNat i ≤ UInt32.ofNat j then UInt32.ofNat i else UInt32.ofNat j) = _
  by_cases hle : i ≤ j
  · rw [if_pos ((ofNat_le_ofNat hi hj).mpr hle), min_eq_left hle]
  · rw [if_neg (mt (ofNat_le_ofNat hi hj).mp hle), min_eq_right (by omega)]

theorem limitBytes_here {seq : SequenceNumber32} (rest : List TcpTxItem) (ht : (t.startSeq == seq) = true) (hne : t.packet ≠ []) (hm : 0 < m)
    (hm' : m < 2 ^ 31) (hbound : t.packet.length + bytes rest < 2 ^ 31) :
    ∃ k, limitBytes (UInt32.ofNat m) seq (t :: rest) = UInt32.ofNat k ∧ 0 < k ∧ k ≤ m ∧
      (t.sacked = false → alike (overlapping 0 k (t :: rest)) = true) := by
  have hpos := List.length_pos_iff.mpr hne
  have hone : min (UInt32.ofNat m) t.size = UInt32.ofNat (min m t.packet.length) := min_ofNat (by omega) (by omega)
  have halone : ∀ l : List TcpTxItem, alike (overlapping 0 (min m t.packet.length) (t :: l)) = true := by
    intro l
    rw [overlapping, if_neg (by omega), if_pos (by omega)]
    rfl
  rw [limitBytes.eq_def]
  dsimp only
  rw [if_pos ht]
  cases rest with
  | nil => exact ⟨_, hone, by omega, min_le_left _ _, fun _ => halone []⟩
  | cons next rest =>
    rw [bytes_cons] at hbound
    dsimp only
    split_ifs with hflags
    · have htwo : min (UInt32.ofNat m) (t.size + next.size) = UInt32.ofNat (min m (t.packet.length + next.packet.length)) := by
        rw [TcpTxItem.size, TcpTxItem.size, packetSize, packetSize, ← UInt32.ofNat_add]
        exact min_ofNat (by omega) (by omega)
      refine ⟨_, htwo, by omega, min_le_left _ _, fun hsacked => ?_⟩
      obtain ⟨hnext, hlost⟩ := Bool.and_eq_true_iff.mp hflags
      rw [overlapping, if_neg (by omega)]
      split_ifs with hend
      · rfl
      · rw [overlapping, if_neg (by omega), if_pos (by omega), alike_cons_cons, hsacked, beq_iff_eq.mp hlost,
          (Bool.not_eq_true' _).mp hnext]
        simp [alike]
    · exact ⟨_, hone, by omega, min_le_left _ _, fun _ => halone _⟩

end Find

/-! ## The invariant -/

/-- **The buffer is the stream** without its first `base` bytes. -/
structure Streams (isn : SequenceNumber32) (stream : List UInt8) (base : ℕ) (s : TcpTxBuffer) : Prop where
  content : content s.sentList ++ content s.appList = stream.drop base
  base_le : base ≤ stream.length
  first : s.firstByteSeq = seqAt isn base
  starts : Starts isn base s.sentList
  sentSize : s.sentSize = UInt32.ofNat (bytes s.sentList)
  size : s.size = UInt32.ofNat (bytes s.sentList + bytes s.appList)
  nonempty : ∀ t ∈ s.sentList ++ s.appList, t.packet ≠ []
  bound : bytes s.sentList + bytes s.appList < 2 ^ 31

def Copied (isn : SequenceNumber32) (stream : List UInt8) (i n : ℕ) (t : TcpTxItem) : Prop :=
  t.startSeq = seqAt isn i ∧ 1 ≤ t.packet.length ∧ t.packet.length ≤ n ∧
    t.packet = slice stream i (i + t.packet.length)

/-- A retransmission of `m` bytes finds an item: the segment that begins there is not sacked, or all segments with the
bytes have the same flags and are not sacked. -/
def canRetransmit (s : TcpTxBuffer) (m : ℕ) (seq : SequenceNumber32) : Bool :=
  match s.sentList.find? fun t => t.startSeq == seq with
  | some t => ! t.sacked
  | none =>
    let l := overlapping (seq - s.firstByteSeq).toNat m s.sentList
    alike l && l.all fun t => ! t.sacked

/-- A copy finds an item: new data has flags that can be merged and is not marked as sent again; a request beyond the end
of the sent data does not cross the end of the circle, and can be retransmitted up to the end. -/
def canCopy (s : TcpTxBuffer) (n : UInt32) (seq : SequenceNumber32) : Bool :=
  let j := (seq - s.firstByteSeq).toNat
  let m := min n.toNat (bytes s.sentList + bytes s.appList - j)
  if bytes s.sentList ≤ j then
    let l := overlapping 0 m s.appList
    alike l && ! l.all TcpTxItem.retrans
  else
    (decide (j + m ≤ bytes s.sentList) || decide (seq.toNat + m < 2 ^ 32)) &&
      s.canRetransmit (min m (bytes s.sentList - j)) seq

namespace Streams

variable {isn : SequenceNumber32} {stream : List UInt8} {base j m n : ℕ} {s s' : TcpTxBuffer} {t : TcpTxItem}

section

variable (h : Streams isn stream base s)

include h

theorem length_eq : base + (bytes s.sentList + bytes s.appList) = stream.length := by
  have hle := h.base_le
  have hlength := congrArg List.length h.content
  rw [List.length_append, length_content, length_content, List.length_drop] at hlength
  omega

theorem slice_sent (hjm : j + m ≤ bytes s.sentList) :
    ((TcpTxBuffer.content s.sentList).drop j).take m = slice stream (base + j) (base + j + m) := by
  have hlength := length_content s.sentList
  rw [slice, ← List.drop_drop, ← h.content, List.drop_append_of_le_length (by omega), List.take_append_of_le_length,
    Nat.add_sub_cancel_left]
  rw [List.length_drop]
  omega

theorem slice_app (m : ℕ) :
    (TcpTxBuffer.content s.appList).take m = slice stream (base + bytes s.sentList) (base + bytes s.sentList + m) := by
  rw [slice, ← List.drop_drop, ← h.content, ← length_content s.sentList, List.drop_left, Nat.add_sub_cancel_left]

theorem getTransmittedSegment_eq (hm : m < 2 ^ 32) (hsent : m ≤ bytes s.sentList) {k : ℕ} (hk : 0 < k) (hkm : k ≤ m)
    (hjk : j + k ≤ bytes s.sentList) (hlimit : limitBytes (UInt32.ofNat m) (seqAt isn (base + j)) s.sentList = UInt32.ofNat k) :
    (alike (overlapping j k s.sentList) = true → ∃ t s',
        s.getTransmittedSegment (UInt32.ofNat m) (seqAt isn (base + j)) = some (t, s') ∧
          Copied isn stream (base + j) m t ∧ (∀ u ∈ overlapping j k s.sentList, t.sacked = u.sacked) ∧
          ((∀ u ∈ overlapping j k s.sentList, u.sacked = false) →
            ∀ i, sackedAt i s'.sentList = sackedAt i s.sentList)) ∧
      (alike (overlapping j k s.sentList) = false →
        s.getTransmittedSegment (UInt32.ofNat m) (seqAt isn (base + j)) = none) := by
  have hbound := h.bound
  have hstream := h.length_eq
  have hne := fun u hu => h.nonempty u (List.mem_append_left _ hu)
  have hassert : (ge (seqAt isn (base + j)) s.firstByteSeq && decide (UInt32.ofNat m ≤ s.sentSize) &&
      ! s.sentList.isEmpty) = true := by
    have hge : ge (seqAt isn (base + j)) s.firstByteSeq = true := by
      rw [h.first, ge_seqAt (by omega) (by omega), decide_eq_true_eq]
      omega
    have hle : UInt32.ofNat m ≤ s.sentSize := by
      rw [h.sentSize]
      exact (ofNat_le_ofNat hm (by omega)).mpr hsent
    have hsome : s.sentList.isEmpty = false := by
      rw [List.isEmpty_eq_false_iff]
      rintro heq
      rw [heq, bytes_nil] at hjk
      omega
    rw [hge, decide_eq_true hle, hsome]
    rfl
  obtain ⟨hfound, hnone⟩ := getPacketFromList_eq true isn s.firstByteSeq base j (s.sentList.length + 2) s.nextId s.retrans
    (fun _ => ⟨h.starts, h.first⟩) hne hk hjk (by omega) le_rfl
  rw [getTransmittedSegment, if_pos hassert, hlimit, h.first]
  rw [h.first] at hfound hnone
  refine ⟨fun halike => ?_, fun halike => ?_⟩
  · obtain ⟨f, hf, hpacket, hstart, hsame, -, hplaces⟩ := hfound halike
    rw [h.slice_sent hjk] at hpacket
    have hlength : f.item.packet.length = k := by
      rw [hpacket, length_slice (by omega), Nat.add_sub_cancel_left]
    rw [hf]
    refine ⟨_, _, rfl, ⟨hstart rfl, ?_, ?_, ?_⟩, fun u hu => (hsame u hu).2, fun hnot i => ?_⟩
    · exact hlength ▸ hk
    · exact hlength ▸ hkm
    · show f.item.packet = slice stream (base + j) (base + j + f.item.packet.length)
      rw [hlength, hpacket]
    · rw [← hplaces hnot i, Found.list, sackedAt_append, sackedAt_append, sackedAt, sackedAt]
  · rw [hnone halike]
    rfl

end

theorem overlapping_ne_nil {l : List TcpTxItem} (hj : j < bytes l) (m : ℕ) : overlapping j m l ≠ [] := by
  obtain ⟨before, t, rest, rfl, hbefore, hlt⟩ := exists_item_at hj
  rw [overlapping_append m before _ hbefore, overlapping, if_neg (by omega)]
  exact List.cons_ne_nil _ _

section

variable (h : Streams isn stream base s)

include h

/-- **A retransmission** from byte `j` on. -/
theorem getTransmittedSegment_iff (hm : 0 < m) (hjm : j + m ≤ bytes s.sentList) :
    (s.canRetransmit m (seqAt isn (base + j)) = true → ∃ t s',
        s.getTransmittedSegment (UInt32.ofNat m) (seqAt isn (base + j)) = some (t, s') ∧ t.sacked = false ∧
          Copied isn stream (base + j) m t ∧ ∀ i, sackedAt i s'.sentList = sackedAt i s.sentList) ∧
      (s.canRetransmit m (seqAt isn (base + j)) = false → ∀ t s',
        s.getTransmittedSegment (UInt32.ofNat m) (seqAt isn (base + j)) = some (t, s') → t.sacked = true) := by
  have hbound := h.bound
  obtain ⟨before, t, rest, hl, hbefore, hj⟩ := exists_item_at (show j < bytes s.sentList by omega)
  have hstarts := h.starts
  have hne := fun u hu => h.nonempty u (List.mem_append_left _ hu)
  have hbytes : bytes s.sentList = bytes before + (t.packet.length + bytes rest) := by rw [hl, bytes_append, bytes_cons]
  rw [hl] at hstarts hne
  have hnebefore : ∀ u ∈ before, u.packet ≠ [] := fun u hu => hne u (List.mem_append_left _ hu)
  have hnet := hne t (List.mem_append_right _ List.mem_cons_self)
  obtain ⟨k, rfl⟩ : ∃ k, j = bytes before + k := ⟨j - bytes before, by omega⟩
  rcases Nat.eq_zero_or_pos k with rfl | hk
  · -- a segment begins there
    rw [Nat.add_zero] at hjm ⊢
    have hfind : (s.sentList.find? fun u => u.startSeq == seqAt isn (base + bytes before)) = some t := by
      rw [hl]
      exact find_start hstarts hnebefore (by omega)
    obtain ⟨k, hlimit, hkpos, hkm, hmerge⟩ := limitBytes_here (m := m) rest
      (beq_iff_eq.mpr (starts_append.mp hstarts).2.1) hnet hm (by omega) (by omega)
    have hlimit' : limitBytes (UInt32.ofNat m) (seqAt isn (base + bytes before)) s.sentList = UInt32.ofNat k := by
      rw [hl, limitBytes_append (not_start_before (starts_append.mp hstarts).1 hnebefore le_rfl (by omega)), hlimit]
    have hover : overlapping (bytes before) k s.sentList = overlapping 0 k (t :: rest) := by
      rw [hl, overlapping_append k before _ le_rfl, Nat.sub_self]
    have hmem : t ∈ overlapping (bytes before) k s.sentList := by
      have hpos := List.length_pos_iff.mpr hnet
      rw [hover, overlapping, if_neg (by omega)]
      exact List.mem_cons_self
    obtain ⟨hfound, hnone⟩ := h.getTransmittedSegment_eq (by omega) (by omega) hkpos hkm (by omega) hlimit'
    rw [canRetransmit, hfind]
    refine ⟨fun hcan => ?_, fun hcan u s' hu => ?_⟩
    · have hsacked : t.sacked = false := (Bool.not_eq_true' _).mp hcan
      obtain ⟨u, s', hu, hcopied, hsame, hplaces⟩ := hfound (hover ▸ hmerge hsacked)
      have hnot := (hsame t hmem).trans hsacked
      exact ⟨u, s', hu, hnot, hcopied, hplaces fun v hv => (hsame v hv).symm.trans hnot⟩
    · have hsacked : t.sacked = true := (Bool.not_eq_false' _).mp hcan
      cases halike : alike (overlapping (bytes before) k s.sentList)
      · rw [hnone halike] at hu
        cases hu
      · obtain ⟨v, s'', hv, -, hsame, -⟩ := hfound halike
        obtain ⟨rfl, -⟩ := Prod.mk.inj (Option.some.inj (hu.symm.trans hv))
        exact (hsame t hmem).trans hsacked
  · -- the request begins inside a segment
    have hfind : (s.sentList.find? fun u => u.startSeq == seqAt isn (base + (bytes before + k))) = none := by
      rw [hl]
      exact find_no_start hstarts hnebefore hk (by omega) (by omega)
    have hoffset : (seqAt isn (base + (bytes before + k)) - s.firstByteSeq).toNat = bytes before + k := by
      rw [h.first, seqAt_sub_seqAt (by omega), Nat.add_sub_cancel_left, UInt32.toNat_ofNat_of_lt' (show _ < 2 ^ 32 by omega)]
    obtain ⟨hfound, hnone⟩ := h.getTransmittedSegment_eq (by omega) (by omega) hm le_rfl hjm (limitBytes_of_find hfind)
    rw [canRetransmit, hfind]
    dsimp only
    rw [hoffset]
    have hnonempty := overlapping_ne_nil (show bytes before + k < bytes s.sentList by omega) m
    cases halike : alike (overlapping (bytes before + k) m s.sentList)
    · refine ⟨fun hcan => absurd hcan (by simp), fun _ u s' hu => ?_⟩
      rw [hnone halike] at hu
      cases hu
    · obtain ⟨u, s', hu, hcopied, hsame, hplaces⟩ := hfound halike
      rw [Bool.true_and]
      refine ⟨fun hcan => ?_, fun hcan v s'' hv => ?_⟩
      · have hnot : ∀ w ∈ overlapping (bytes before + k) m s.sentList, w.sacked = false := fun w hw =>
          (Bool.not_eq_true' _).mp (List.all_eq_true.mp hcan w hw)
        obtain ⟨w, hw⟩ := List.exists_mem_of_ne_nil _ hnonempty
        exact ⟨u, s', hu, (hsame w hw).trans (hnot w hw), hcopied, hplaces hnot⟩
      · obtain ⟨w, hw, hsacked⟩ := List.all_eq_false.mp hcan
        obtain ⟨rfl, -⟩ := Prod.mk.inj (Option.some.inj (hv.symm.trans hu))
        rw [hsame w hw]
        simpa using hsacked

/-- **New data.** -/
theorem getNewSegment_iff (hm : 0 < m) (hle : m ≤ bytes s.appList) :
    ((alike (overlapping 0 m s.appList) && ! (overlapping 0 m s.appList).all TcpTxItem.retrans) = true → ∃ t s',
        s.getNewSegment (UInt32.ofNat m) = some (t, s') ∧ t.retrans = false ∧
          Copied isn stream (base + bytes s.sentList) m t) ∧
      ((alike (overlapping 0 m s.appList) && ! (overlapping 0 m s.appList).all TcpTxItem.retrans) = false → ∀ t s',
        s.getNewSegment (UInt32.ofNat m) = some (t, s') → t.retrans = true) := by
  have hbound := h.bound
  have hstream := h.length_eq
  have hstart : s.firstByteSeq + s.sentSize = seqAt isn (base + bytes s.sentList) := by rw [h.first, h.sentSize, seqAt_add]
  obtain ⟨hfound, hnone⟩ := getPacketFromList_eq (m := m) false isn s.firstByteSeq (base + bytes s.sentList) 0
    (s.appList.length + 2) s.nextId s.retrans (fun hsent => absurd hsent Bool.false_ne_true) (fun u hu => h.nonempty u (List.mem_append_right _ hu)) hm
    (by omega) (by omega) le_rfl
  rw [Nat.add_zero, List.drop_zero] at hfound
  rw [Nat.add_zero] at hnone
  rw [getNewSegment]
  dsimp only
  rw [hstart]
  cases halike : alike (overlapping 0 m s.appList)
  · rw [hnone halike]
    exact ⟨fun h => absurd h (by simp), fun _ t s' ht => by cases ht⟩
  · obtain ⟨f, hf, hpacket, -, -, hretrans, -⟩ := hfound halike
    rw [h.slice_app] at hpacket
    have hlength : f.item.packet.length = m := by
      rw [hpacket, length_slice (by omega), Nat.add_sub_cancel_left]
    rw [hf, Bool.true_and, ← hretrans]
    refine ⟨fun hcan => ⟨_, _, rfl, (Bool.not_eq_true' _).mp hcan, rfl, ?_, ?_, ?_⟩, fun hcan t s' ht => ?_⟩
    · exact hlength ▸ hm
    · exact hlength.le
    · show f.item.packet = slice stream _ (base + bytes s.sentList + f.item.packet.length)
      rw [hlength, hpacket]
    · obtain ⟨rfl, -⟩ := Prod.mk.inj (Option.some.inj ht)
      exact (Bool.not_eq_false' _).mp hcan

theorem sizeFromSequence_eq (hj : j ≤ bytes s.sentList + bytes s.appList) :
    s.sizeFromSequence (seqAt isn (base + j)) = UInt32.ofNat (bytes s.sentList + bytes s.appList - j) := by
  have hbound := h.bound
  have htail : s.tailSequence = seqAt isn (base + (bytes s.sentList + bytes s.appList)) := by
    rw [tailSequence, h.first, h.size, seqAt_add]
  rw [sizeFromSequence, htail, ge_seqAt (by omega) (by omega), decide_eq_true (by omega), if_pos rfl, toUInt32_sub,
    seqAt_sub_seqAt (by omega), Nat.add_sub_add_left]

theorem copyLoop_sent (hm : 0 < m) (hjm : j + m ≤ bytes s.sentList) {n : UInt32}
    (hn : min n (s.sizeFromSequence (seqAt isn (base + j))) = UInt32.ofNat m) (fuel : ℕ) :
    (s.canRetransmit m (seqAt isn (base + j)) = true → ∃ t s',
        s.copyLoop (fuel + 1) n (seqAt isn (base + j)) = some (some t, s') ∧ Copied isn stream (base + j) m t) ∧
      ∀ t s', s.copyLoop (fuel + 1) n (seqAt isn (base + j)) = some (some t, s') →
        s.canRetransmit m (seqAt isn (base + j)) = true := by
  have hbound := h.bound
  have hbefore : ¬ gt s.firstByteSeq (seqAt isn (base + j)) = true := by
    rw [h.first, gt_seqAt (by omega) (by omega), decide_eq_true_eq]
    omega
  have hzero : ¬ (UInt32.ofNat m == 0) = true := by
    rw [beq_zero_ofNat (by omega), decide_eq_true_eq]
    omega
  have hsent : ge (s.firstByteSeq + s.sentSize) (seqAt isn (base + j) + UInt32.ofNat m) = true := by
    rw [h.first, h.sentSize, seqAt_add, seqAt_add, ge_seqAt (by omega) (by omega), decide_eq_true_eq]
    omega
  obtain ⟨hfound, hfail⟩ := h.getTransmittedSegment_iff hm hjm
  rw [copyLoop, if_neg hbefore, hn]
  dsimp only
  rw [if_neg hzero, if_pos hsent]
  constructor
  · intro hcan
    obtain ⟨t, s', ht, hsacked, hcopied, -⟩ := hfound hcan
    have hge : ge t.startSeq s.firstByteSeq = true := by
      rw [hcopied.1, h.first, ge_seqAt (by omega) (by omega), decide_eq_true_eq]
      omega
    refine ⟨t, s', ?_, hcopied⟩
    rw [ht, Option.bind_some, hsacked, hge]
    rfl
  · intro t s' ht
    obtain ⟨⟨u, s''⟩, hu, ht⟩ := Option.bind_eq_some_iff.mp ht
    by_contra hcan
    rw [hfail (Bool.eq_false_iff.mpr hcan) u s'' hu] at ht
    cases ht

end

/-- Comparing the numbers themselves works when they do not wrap. -/
theorem raw_lt_iff (isn : SequenceNumber32) (x : ℕ) {S : ℕ} (hj : j < S) (hS : S < j + m) (hbound : j + m < 2 ^ 31) :
    (seqAt isn (x + S) > seqAt isn (x + j) ∧ seqAt isn (x + S) < seqAt isn (x + j + m)) ↔
      (seqAt isn (x + j)).toNat + m < 2 ^ 32 := by
  rw [gt_iff_lt, UInt32.lt_iff_toNat_lt, UInt32.lt_iff_toNat_lt, toNat_seqAt, toNat_seqAt, toNat_seqAt]
  omega

/-- **A copy** returns the bytes of the stream, just when the condition holds. -/
theorem copyFromSequence_iff (h : Streams isn stream base s) {n : UInt32} (hn : n ≠ 0) (hj : j ≤ bytes s.sentList)
    (hdata : j < bytes s.sentList + bytes s.appList) :
    (∃ t s', s.copyFromSequence n (seqAt isn (base + j)) = some (some t, s') ∧ Copied isn stream (base + j) n.toNat t) ↔
      s.canCopy n (seqAt isn (base + j)) = true := by
  have hbound := h.bound
  have hpos : 0 < n.toNat := Nat.pos_of_ne_zero fun hzero => hn (UInt32.toNat_inj.mp hzero)
  have hoffset : (seqAt isn (base + j) - s.firstByteSeq).toNat = j := by
    rw [h.first, seqAt_sub_seqAt (by omega), Nat.add_sub_cancel_left, UInt32.toNat_ofNat_of_lt' (show _ < 2 ^ 32 by omega)]
  rw [canCopy, hoffset]
  dsimp only
  obtain ⟨m, hm⟩ : ∃ m, m = min n.toNat (bytes s.sentList + bytes s.appList - j) := ⟨_, rfl⟩
  have hmin : min n (s.sizeFromSequence (seqAt isn (base + j))) = UInt32.ofNat m := by
    rw [h.sizeFromSequence_eq hdata.le, hm, ← min_ofNat n.toNat_lt (by omega), UInt32.ofNat_toNat]
  rw [← hm]
  have hmn : m ≤ n.toNat := by omega
  have hmono : ∀ {k : ℕ} {t : TcpTxItem}, k ≤ m → Copied isn stream (base + j) k t → Copied isn stream (base + j) n.toNat t :=
    fun hk hcopied => ⟨hcopied.1, hcopied.2.1, hcopied.2.2.1.trans (hk.trans hmn), hcopied.2.2.2⟩
  rw [copyFromSequence]
  by_cases hsent : j + m ≤ bytes s.sentList
  · obtain ⟨hfound, hcan⟩ := h.copyLoop_sent (by omega) hsent hmin 1
    rw [if_neg (by omega), decide_eq_true hsent, Bool.true_or, Bool.true_and, min_eq_left (by omega)]
    constructor
    · rintro ⟨t, s', ht, -⟩
      exact hcan t s' ht
    · intro h
      obtain ⟨t, s', ht, hcopied⟩ := hfound h
      exact ⟨t, s', ht, hmono le_rfl hcopied⟩
  · have hbefore : ¬ gt s.firstByteSeq (seqAt isn (base + j)) = true := by
      rw [h.first, gt_seqAt (by omega) (by omega), decide_eq_true_eq]
      omega
    have hzero : ¬ (UInt32.ofNat m == 0) = true := by
      rw [beq_zero_ofNat (by omega), decide_eq_true_eq]
      omega
    have hend : s.firstByteSeq + s.sentSize = seqAt isn (base + bytes s.sentList) := by rw [h.first, h.sentSize, seqAt_add]
    have hnot : ¬ ge (seqAt isn (base + bytes s.sentList)) (seqAt isn (base + j) + UInt32.ofNat m) = true := by
      rw [seqAt_add, ge_seqAt (by omega) (by omega), decide_eq_true_eq]
      omega
    rw [copyLoop, if_neg hbefore, hmin]
    dsimp only
    rw [if_neg hzero, hend, if_neg hnot]
    rcases eq_or_lt_of_le hj with rfl | hlt
    · -- new data
      have hle : le (seqAt isn (base + bytes s.sentList)) (seqAt isn (base + bytes s.sentList)) = true := by
        rw [le_seqAt (by omega) (by omega), decide_eq_true_eq]
      obtain ⟨hfound, hfail⟩ := h.getNewSegment_iff (show 0 < m by omega) (by omega)
      rw [if_pos hle, if_pos (beq_self_eq_true _), if_pos le_rfl]
      constructor
      · rintro ⟨t, s', ht, -⟩
        obtain ⟨⟨u, s''⟩, hu, ht⟩ := Option.bind_eq_some_iff.mp ht
        by_contra hcan
        rw [hfail (Bool.eq_false_iff.mpr hcan) u s'' hu] at ht
        cases ht
      · intro hcan
        obtain ⟨t, s', ht, hretrans, hcopied⟩ := hfound hcan
        have hge : ge t.startSeq s.firstByteSeq = true := by
          rw [hcopied.1, h.first, ge_seqAt (by omega) (by omega), decide_eq_true_eq]
          omega
        refine ⟨t, s', ?_, hmono le_rfl hcopied⟩
        rw [ht, Option.bind_some, hretrans, hge]
        rfl
    · -- across the end of the sent data
      have hle : ¬ le (seqAt isn (base + bytes s.sentList)) (seqAt isn (base + j)) = true := by
        rw [le_seqAt (by omega) (by omega), decide_eq_true_eq]
        omega
      have hraw := raw_lt_iff isn base hlt (by omega) (show j + m < 2 ^ 31 by omega)
      rw [if_neg hle, seqAt_add, if_neg (show ¬ bytes s.sentList ≤ j by omega), decide_eq_false hsent, Bool.false_or,
        min_eq_right (by omega)]
      by_cases hwrap : (seqAt isn (base + j)).toNat + m < 2 ^ 32
      · have hamount : min (UInt32.ofNat (bytes s.sentList - j)) (s.sizeFromSequence (seqAt isn (base + j))) =
            UInt32.ofNat (bytes s.sentList - j) := by
          rw [h.sizeFromSequence_eq hdata.le, min_ofNat (by omega) (by omega), min_eq_left (by omega)]
        obtain ⟨hfound, hcan⟩ := h.copyLoop_sent (show 0 < bytes s.sentList - j by omega) (by omega) hamount 0
        rw [if_pos (hraw.mpr hwrap), seqAt_sub_seqAt (by omega), Nat.add_sub_add_left, decide_eq_true hwrap, Bool.true_and]
        constructor
        · rintro ⟨t, s', ht, -⟩
          exact hcan t s' ht
        · intro h
          obtain ⟨t, s', ht, hcopied⟩ := hfound h
          exact ⟨t, s', ht, hmono (by omega) hcopied⟩
      · rw [if_neg (mt hraw.mp hwrap), decide_eq_false hwrap, Bool.false_and]
        constructor
        · rintro ⟨t, s', ht, -⟩
          cases ht
        · intro h
          cases h

end Streams

/-! ## Calls that do not move data -/

structure SameData (s s' : TcpTxBuffer) : Prop where
  frames : s'.sentList.map TcpTxItem.frame = s.sentList.map TcpTxItem.frame
  appList : s'.appList = s.appList
  sentSize : s'.sentSize = s.sentSize
  size : s'.size = s.size
  first : s'.firstByteSeq = s.firstByteSeq
  nextId : s'.nextId = s.nextId

namespace SameData

variable {s s' s'' : TcpTxBuffer}

theorem refl (s : TcpTxBuffer) : SameData s s := ⟨rfl, rfl, rfl, rfl, rfl, rfl⟩

theorem trans (h : SameData s s') (h' : SameData s' s'') : SameData s s'' :=
  ⟨h'.frames.trans h.frames, h'.appList.trans h.appList, h'.sentSize.trans h.sentSize, h'.size.trans h.size,
    h'.first.trans h.first, h'.nextId.trans h.nextId⟩

theorem markHeadAsLost (s : TcpTxBuffer) : SameData s s.markHeadAsLost := by
  rw [TcpTxBuffer.markHeadAsLost]
  cases hl : s.sentList with
  | nil => exact refl s
  | cons head tail => exact ⟨by rw [hl]; rfl, rfl, rfl, rfl, rfl, rfl⟩

theorem deleteRetransmittedFlagFromHead (s : TcpTxBuffer) : SameData s s.deleteRetransmittedFlagFromHead := by
  rw [TcpTxBuffer.deleteRetransmittedFlagFromHead]
  split_ifs
  · exact refl s
  · cases hl : s.sentList with
    | nil => exact refl s
    | cons head tail =>
      dsimp only
      split_ifs
      · exact ⟨by rw [hl]; rfl, rfl, rfl, rfl, rfl, rfl⟩
      · exact refl s

theorem resetRenoSack (s : TcpTxBuffer) : SameData s s.resetRenoSack :=
  ⟨by rw [TcpTxBuffer.resetRenoSack, List.map_map]; rfl, rfl, rfl, rfl, rfl, rfl⟩

theorem setSentListLost {resetSack : Bool} (hs : s.setSentListLost resetSack = some s') : SameData s s' := by
  rw [TcpTxBuffer.setSentListLost] at hs
  cases resetSack
  · simp only [Bool.false_eq_true, if_false] at hs
    split_ifs at hs
    obtain rfl := Option.some.inj hs
    refine ⟨?_, rfl, rfl, rfl, rfl, rfl⟩
    dsimp only
    rw [(setLost_false 0 s.sentList).1, List.map_map]
    rfl
  · simp only [if_true, setLost_true] at hs
    split_ifs at hs
    obtain rfl := Option.some.inj hs
    refine ⟨?_, rfl, rfl, rfl, rfl, rfl⟩
    dsimp only
    rw [List.map_map]
    rfl

theorem renoScan_frames {l : List TcpTxItem} {r : List TcpTxItem × TcpTxItem} (h : renoScan l = some r) :
    r.1.map TcpTxItem.frame = l.map TcpTxItem.frame := by
  induction l generalizing r with
  | nil => cases h
  | cons t rest ih =>
    rw [renoScan] at h
    split_ifs at h
    · obtain ⟨r', hr', rfl⟩ := Option.map_eq_some_iff.mp h
      exact congrArg (List.cons t.frame) (ih hr')
    · obtain rfl := Option.some.inj h
      rfl

theorem addRenoSack (hs : s.addRenoSack = some s') : SameData s s' := by
  rw [TcpTxBuffer.addRenoSack] at hs
  cases hl : s.sentList with
  | nil =>
    rw [hl] at hs
    cases hs
  | cons head tail =>
    rw [hl] at hs
    dsimp only at hs
    split_ifs at hs
    cases hscan : renoScan tail with
    | none =>
      rw [hscan] at hs
      obtain rfl := Option.some.inj hs
      exact ⟨by rw [hl], rfl, rfl, rfl, rfl, rfl⟩
    | some r =>
      rw [hscan] at hs
      obtain rfl := Option.some.inj hs
      refine ⟨?_, rfl, rfl, rfl, rfl, rfl⟩
      rw [hl]
      exact congrArg (List.cons head.frame) (renoScan_frames hscan)

theorem moveSackFromHead (hs : s.moveSackFromHead = some s') : SameData s s' := by
  rw [TcpTxBuffer.moveSackFromHead] at hs
  cases hl : s.sentList with
  | nil =>
    rw [hl] at hs
    obtain rfl := Option.some.inj hs
    exact refl s
  | cons head tail =>
    rw [hl] at hs
    dsimp only at hs
    split_ifs at hs
    · obtain ⟨s1, hs1, rfl⟩ := Option.map_eq_some_iff.mp hs
      have h1 := addRenoSack hs1
      refine trans ⟨?_, h1.appList, h1.sentSize, h1.size, h1.first, h1.nextId⟩ (markHeadAsLost s1)
      rw [h1.frames, hl]
      rfl
    · obtain rfl := Option.some.inj hs
      exact refl s

theorem updateLostCount (hs : s.updateLostCount = some s') : SameData s s' := by
  obtain ⟨id, -, hs⟩ := Option.bind_eq_some_iff.mp hs
  obtain ⟨⟨below, after⟩, hsplit, hs⟩ := Option.bind_eq_some_iff.mp hs
  have hl := splitAfter_append hsplit
  cases below with
  | nil => cases hs
  | cons head tail =>
    obtain rfl := Option.some.inj hs
    refine ⟨?_, rfl, rfl, rfl, rfl, rfl⟩
    have hscan := (Reflagged.lostScan s.dupAckThresh s.lostOut 0 tail).frames
    dsimp only
    rw [← hl, List.cons_append, List.map_cons, List.map_cons, List.map_append, List.map_append, hscan]
    split_ifs <;> rfl

theorem update {list : List SackBlock} {n : UInt32} (hs : s.update list = some (n, s')) : SameData s s' := by
  obtain ⟨⟨l, board, done⟩, hblocks, hs⟩ := Option.bind_eq_some_iff.mp hs
  have h1 : SameData s { s with
      sentList := l
      lostOut := board.lostOut
      sackedOut := board.sackedOut
      highestSack := board.highestSack } := ⟨(Reflagged.updateBlocks hblocks).frames, rfl, rfl, rfl, rfl, rfl⟩
  dsimp only at hs
  rcases Bool.eq_false_or_eq_true done with rfl | rfl
  · obtain ⟨-, rfl⟩ := Prod.mk.inj (Option.some.inj hs)
    exact h1
  · rw [if_neg Bool.false_ne_true] at hs
    obtain ⟨s2, hs2, hs⟩ := Option.bind_eq_some_iff.mp hs
    have h2 : SameData s s2 := by
      split_ifs at hs2
      · exact h1.trans (updateLostCount hs2)
      · obtain rfl := Option.some.inj hs2
        exact h1
    cases hl : s2.sentList with
    | nil =>
      rw [hl] at hs
      cases hs
    | cons head tail =>
      rw [hl] at hs
      dsimp only at hs
      split_ifs at hs
      obtain ⟨-, rfl⟩ := Prod.mk.inj (Option.some.inj hs)
      exact h2

theorem removeFromCounts {item : TcpTxItem} {size : UInt32} (hs : s.removeFromCounts item size = some s') :
    SameData s s' := by
  rw [TcpTxBuffer.removeFromCounts, Option.ite_none_left_eq_some] at hs
  obtain rfl := Option.some.inj hs.2
  exact ⟨rfl, rfl, rfl, rfl, rfl, rfl⟩

end SameData

def dropBytes : ℕ → List TcpTxItem → List TcpTxItem
  | _, [] => []
  | k, t :: rest =>
    if t.packet.length ≤ k then dropBytes (k - t.packet.length) rest
    else { t with packet := t.packet.drop k, startSeq := t.startSeq + UInt32.ofNat k } :: rest

theorem dropBytes_zero {l : List TcpTxItem} (hne : ∀ t ∈ l, t.packet ≠ []) : dropBytes 0 l = l := by
  cases l with
  | nil => rfl
  | cons t rest =>
    have hpos := List.length_pos_iff.mpr (hne t List.mem_cons_self)
    rw [dropBytes, if_neg (by omega), List.drop_zero, show UInt32.ofNat 0 = 0 from rfl, UInt32.add_zero]

theorem removeFromCounts_eq {s s' : TcpTxBuffer} {item : TcpTxItem} {size : UInt32} (hs : s.removeFromCounts item size = some s') :
    s' = { s with sackedOut := s'.sackedOut, retrans := s'.retrans, lostOut := s'.lostOut } := by
  rw [TcpTxBuffer.removeFromCounts, Option.ite_none_left_eq_some] at hs
  rw [← Option.some.inj hs.2]

theorem starts_of_frame {isn : SequenceNumber32} {l l' : List TcpTxItem} (h : l'.map TcpTxItem.frame = l.map TcpTxItem.frame)
    {i : ℕ} (hl : Starts isn i l) : Starts isn i l' := by
  induction l generalizing l' i with
  | nil =>
    rw [List.map_eq_nil_iff.mp h]
    exact hl
  | cons t l ih =>
    cases l' with
    | nil => cases h
    | cons t' l' =>
      rw [List.map_cons, List.map_cons] at h
      obtain ⟨ht, hrest⟩ := List.cons.inj h
      have hstart : t'.startSeq = t.startSeq := congrArg (fun x => x.2.1) ht
      have hpacket : t'.packet = t.packet := congrArg (fun x => x.2.2) ht
      refine ⟨hstart.trans hl.1, ?_⟩
      rw [hpacket]
      exact ih hrest hl.2

namespace Streams

variable {isn : SequenceNumber32} {stream : List UInt8} {base j m n : ℕ} {s s' : TcpTxBuffer} {t : TcpTxItem}

theorem sameData (h : Streams isn stream base s) (hd : SameData s s') : Streams isn stream base s' := by
  have hpackets := map_packet_of_frame hd.frames
  have hcontent : TcpTxBuffer.content s'.sentList = TcpTxBuffer.content s.sentList := congrArg List.flatten hpackets
  have hbytes : bytes s'.sentList = bytes s.sentList := bytes_congr hpackets
  refine ⟨?_, h.base_le, hd.first.trans h.first, starts_of_frame hd.frames h.starts, ?_, ?_, fun t ht => ?_, ?_⟩
  · rw [hcontent, hd.appList, h.content]
  · rw [hd.sentSize, hbytes, h.sentSize]
  · rw [hd.size, hbytes, hd.appList, h.size]
  · rcases List.mem_append.mp ht with ht | ht
    · exact nonempty_of_packets hpackets (fun u hu => h.nonempty u (List.mem_append_left _ hu)) t ht
    · exact h.nonempty t (List.mem_append_right _ (hd.appList ▸ ht))
  · rw [hbytes, hd.appList]
    exact h.bound

theorem add (h : Streams isn stream base s) {p : List UInt8} (hp : p.length < 2 ^ 32)
    (hbound : bytes (s.add p).sentList + bytes (s.add p).appList < 2 ^ 31) :
    Streams isn (stream ++ if packetSize p ≤ s.available then p else []) base (s.add p) := by
  rw [TcpTxBuffer.add] at hbound ⊢
  split_ifs at hbound ⊢ with hroom hpos
  · have hall := bytes_added s.appList s.nextId p
    refine ⟨?_, ?_, h.first, h.starts, h.sentSize, ?_, nonempty_added h.nonempty hpos _, hbound⟩
    · show TcpTxBuffer.content s.sentList ++ TcpTxBuffer.content (s.appList ++ _) = _
      rw [content_append, ← List.append_assoc, h.content, List.drop_append_of_le_length h.base_le, content_cons, content_nil,
        List.append_nil]
    · rw [List.length_append]
      exact h.base_le.trans (Nat.le_add_right _ _)
    · show s.size + packetSize p = UInt32.ofNat (bytes s.sentList + bytes (s.appList ++ _))
      rw [hall, ← Nat.add_assoc, UInt32.ofNat_add, h.size, packetSize]
  · have hempty : p = [] := by
      have hle := mt UInt32.lt_iff_toNat_lt.mpr hpos
      rw [packetSize, UInt32.toNat_ofNat_of_lt' hp] at hle
      exact List.eq_nil_of_length_eq_zero (Nat.eq_zero_of_not_pos hle)
    rwa [hempty, List.append_nil]
  · rwa [List.append_nil]

theorem getPacketFromList_front {sent : Bool} {first start n r : UInt32} {fuel id : ℕ} {l : List TcpTxItem} {f : Found}
    (hne : ∀ u ∈ l, u.packet ≠ []) (hbound : bytes l < 2 ^ 31) (hn : n ≠ 0)
    (h : getPacketFromList sent first start n start fuel l r id = some f) : f.before = [] := by
  induction fuel generalizing l r id with
  | zero => cases h
  | succ fuel ih =>
    rw [getPacketFromList] at h
    obtain ⟨w, hw, h⟩ := Option.bind_eq_some_iff.mp h
    have hr := walk_rearranged (c := 0) hn hw
    rw [List.nil_append] at hr
    cases l with
    | nil => cases hw
    | cons t rest =>
      have hpos := List.length_pos_iff.mpr (hne t List.mem_cons_self)
      rw [bytes_cons] at hbound
      have hin : lt start (start + t.size) = true := by
        have hlt : lt (seqAt start 0) (seqAt start t.packet.length) = decide (0 < t.packet.length) :=
          lt_seqAt (by omega) (by omega)
        rwa [decide_eq_true hpos, seqAt, seqAt, show UInt32.ofNat 0 = 0 from rfl, UInt32.add_zero] at hlt
      have hnext : ∀ {l' r' id'}, w = .again l' r' id' → f.before = [] := by
        rintro l' r' id' rfl
        exact ih (hr.nonempty hne) (by rw [hr.bytes, bytes_cons]; exact hbound) h
      rw [walk.eq_def] at hw
      dsimp only at hw
      rw [if_pos hin, if_pos (beq_self_eq_true _)] at hw
      split_ifs at hw
      · obtain rfl := Option.some.inj hw
        obtain rfl := Option.some.inj h
        rfl
      · obtain ⟨⟨a, b⟩, -, rfl⟩ := Option.map_eq_some_iff.mp hw
        obtain rfl := Option.some.inj h
        rfl
      · cases rest with
        | nil =>
          obtain rfl := Option.some.inj hw
          obtain rfl := Option.some.inj h
          rfl
        | cons next rest =>
          obtain ⟨⟨t', r'⟩, -, hagain⟩ := Option.map_eq_some_iff.mp hw
          exact hnext hagain.symm

section

variable (h : Streams isn stream base s)

include h

theorem getNewSegment {n : UInt32} (hn : n ≠ 0) (hs : s.getNewSegment n = some (t, s')) : Streams isn stream base s' := by
  have hbound := h.bound
  obtain ⟨f, hf, heq⟩ := Option.map_eq_some_iff.mp hs
  obtain ⟨rfl, rfl⟩ := Prod.mk.inj heq
  have hneapp := fun u hu => h.nonempty u (List.mem_append_right _ hu)
  have hr := getPacketFromList_rearranged (c := 0) hn hf
  have hfront := getPacketFromList_front hneapp (by omega) hn hf
  have hne := hr.nonempty hneapp
  have hcontent : f.item.packet ++ TcpTxBuffer.content f.after = TcpTxBuffer.content s.appList := by
    have hcontent := hr.content
    rwa [Found.list, hfront] at hcontent
  have hbytes : f.item.packet.length + bytes f.after = bytes s.appList := by
    rw [← hr.bytes, Found.list, hfront, List.nil_append, bytes_cons]
  have hmem : ∀ u ∈ f.item :: f.after, u ∈ f.list := fun u hu => List.mem_append_right _ hu
  have hsum : bytes (s.sentList ++ [{ f.item with startSeq := s.firstByteSeq + s.sentSize }]) =
      bytes s.sentList + f.item.packet.length := by
    rw [bytes_append, bytes_cons, bytes_nil, Nat.add_zero]
  have hsum' : bytes (s.sentList ++ [{ f.item with startSeq := s.firstByteSeq + s.sentSize }]) +
      bytes (f.before ++ f.after) = bytes s.sentList + bytes s.appList := by
    rw [hsum, hfront, List.nil_append]
    omega
  refine ⟨?_, h.base_le, h.first, ?_, ?_, ?_, fun u hu => ?_, hsum'.trans_lt hbound⟩
  · show TcpTxBuffer.content (s.sentList ++ [_]) ++ TcpTxBuffer.content (f.before ++ f.after) = _
    rw [content_append, List.append_assoc, content_cons, content_nil, List.append_nil, hfront, List.nil_append, hcontent,
      h.content]
  · refine starts_append.mpr ⟨h.starts, ?_, trivial⟩
    show s.firstByteSeq + s.sentSize = _
    rw [h.first, h.sentSize, seqAt_add]
  · show s.sentSize + packetSize f.item.packet = UInt32.ofNat (bytes (s.sentList ++ _))
    rw [hsum, UInt32.ofNat_add, h.sentSize, packetSize]
  · exact h.size.trans (congrArg _ hsum'.symm)
  · rcases List.mem_append.mp hu with hu | hu
    · rcases List.mem_append.mp hu with hu | hu
      · exact h.nonempty u (List.mem_append_left _ hu)
      · rw [List.mem_singleton.mp hu]
        exact hne f.item (hmem f.item List.mem_cons_self)
    · refine hne u (hmem u (List.mem_cons_of_mem f.item ?_))
      rwa [hfront] at hu

variable {seq : SequenceNumber32}

theorem getTransmittedSegment {n : UInt32} (hn : n ≠ 0)
    (hs : s.getTransmittedSegment n seq = some (t, s')) : Streams isn stream base s' := by
  have hbound := h.bound
  rw [TcpTxBuffer.getTransmittedSegment] at hs
  split_ifs at hs with hassert
  obtain ⟨f, hf, heq⟩ := Option.map_eq_some_iff.mp hs
  obtain ⟨rfl, rfl⟩ := Prod.mk.inj heq
  have hnesent := fun u hu => h.nonempty u (List.mem_append_left _ hu)
  have hlimit := limitBytes_ne_zero hn seq hnesent (by omega)
  have hr := getPacketFromList_rearranged (c := 0) hlimit hf
  have hlist : Streams isn stream base { s with sentList := f.list, nextId := f.nextId } := by
    refine ⟨?_, h.base_le, h.first, hr.starts isn base h.starts, ?_, ?_, fun u hu => ?_, ?_⟩
    · exact (congrArg (· ++ _) hr.content).trans h.content
    · exact h.sentSize.trans (congrArg _ hr.bytes.symm)
    · show s.size = UInt32.ofNat (bytes f.list + bytes s.appList)
      rw [hr.bytes, h.size]
    · rcases List.mem_append.mp hu with hu | hu
      · exact hr.nonempty hnesent u hu
      · exact h.nonempty u (List.mem_append_right _ hu)
    · show bytes f.list + bytes s.appList < 2 ^ 31
      rw [hr.bytes]
      exact hbound
  refine hlist.sameData ⟨?_, rfl, rfl, rfl, rfl, rfl⟩
  dsimp only [Found.list]
  rw [List.map_append, List.map_append]
  rfl

theorem copyLoop {fuel : ℕ} {n : UInt32} {r : Option TcpTxItem}
    (hs : s.copyLoop fuel n seq = some (r, s')) : Streams isn stream base s' :=
  copyLoop_keeps h (fun hn => h.getTransmittedSegment hn) (fun hn => h.getNewSegment hn) hs

theorem discard {k : UInt32} {l : List TcpTxItem} (hk : k.toNat ≤ bytes s.sentList)
    (hcontent : TcpTxBuffer.content l = (TcpTxBuffer.content s.sentList).drop k.toNat) (hstarts : Starts isn (base + k.toNat) l)
    (hne : ∀ t ∈ l, t.packet ≠ []) :
    Streams isn stream (base + k.toNat) { s with
      size := s.size - k
      sentSize := s.sentSize - k
      firstByteSeq := s.firstByteSeq + k
      sentList := l } := by
  have hbound := h.bound
  have hlength := h.length_eq
  have hk' : k = UInt32.ofNat k.toNat := (UInt32.ofNat_toNat).symm
  have hbytes : bytes l = bytes s.sentList - k.toNat := by
    rw [← length_content, hcontent, List.length_drop, length_content]
  refine ⟨?_, by omega, ?_, hstarts, ?_, ?_, fun t ht => ?_, ?_⟩
  · show TcpTxBuffer.content l ++ _ = _
    rw [hcontent, ← List.drop_drop, ← h.content, List.drop_append_of_le_length (by rwa [length_content])]
  · show s.firstByteSeq + k = _
    rw [h.first, hk', seqAt_add, UInt32.ofNat_toNat]
  · show s.sentSize - k = UInt32.ofNat (bytes l)
    rw [hbytes, h.sentSize, ← ofNat_sub_ofNat hk, UInt32.ofNat_toNat]
  · show s.size - k = UInt32.ofNat (bytes l + bytes s.appList)
    rw [hbytes, h.size, ← Nat.sub_add_comm hk, ← ofNat_sub_ofNat (by omega), UInt32.ofNat_toNat]
  · rcases List.mem_append.mp ht with ht | ht
    · exact hne t ht
    · exact h.nonempty t (List.mem_append_right _ ht)
  · show bytes l + bytes s.appList < 2 ^ 31
    omega

/-- **The loop of `DiscardUpTo`**, inside the sent data. -/
theorem discardLoop {fuel : ℕ} {offset : UInt32} (hoffset : offset.toNat ≤ bytes s.sentList)
    (hs : TcpTxBuffer.discardLoop fuel s offset = some s') : Streams isn stream (base + offset.toNat) s' ∧
      s'.sentList = dropBytes offset.toNat s.sentList ∧ s'.appList = s.appList ∧ s'.highestSack = s.highestSack ∧
      s'.nextId = s.nextId := by
  induction fuel generalizing s base offset with
  | zero => cases hs
  | succ fuel ih =>
    have hbound := h.bound
    rw [TcpTxBuffer.discardLoop] at hs
    by_cases hend : (s.size == 0 || offset == 0) = true
    · rw [if_pos hend] at hs
      obtain rfl := Option.some.inj hs
      have hzero : offset.toNat = 0 := by
        rcases Bool.or_eq_true_iff.mp hend with hzero | hzero
        · rw [h.size, beq_zero_ofNat (by omega), decide_eq_true_eq] at hzero
          omega
        · rw [beq_iff_eq.mp hzero]
          rfl
      rw [hzero, Nat.add_zero, dropBytes_zero fun t ht => h.nonempty t (List.mem_append_left _ ht)]
      exact ⟨h, rfl, rfl, rfl, rfl⟩
    · rw [if_neg hend] at hs
      have hpos : offset.toNat ≠ 0 := by
        intro hzero
        rw [show offset = 0 from UInt32.toNat_inj.mp hzero, beq_self_eq_true, Bool.or_true] at hend
        exact hend rfl
      cases hl : s.sentList with
      | nil =>
        rw [hl, bytes_nil] at hoffset
        omega
      | cons item rest =>
        have hstarts := h.starts
        have hne := fun t ht => h.nonempty t (List.mem_append_left _ ht)
        rw [hl] at hs hoffset hstarts hne
        rw [hl, bytes_cons] at hbound
        rw [bytes_cons] at hoffset
        have hsize : item.size.toNat = item.packet.length :=
          UInt32.toNat_ofNat_of_lt' (show item.packet.length < 2 ^ 32 by omega)
        rw [Option.bind_some, hl] at hs
        dsimp only at hs
        split_ifs at hs with hstart hall
        · obtain ⟨s1, hs1, hs⟩ := Option.bind_eq_some_iff.mp hs
          have hle : item.packet.length ≤ offset.toNat := hsize ▸ UInt32.le_iff_toNat_le.mp hall
          have h1 : Streams isn stream (base + item.size.toNat) s1 := by
            refine (h.discard (k := item.size) (l := rest) ?_ ?_ ?_ ?_).sameData (SameData.removeFromCounts hs1)
            · rw [hl, bytes_cons]
              omega
            · rw [hl, content_cons, hsize, List.drop_left]
            · rw [hsize]
              exact hstarts.2
            · exact fun t ht => hne t (List.mem_cons_of_mem item ht)
          have hlist : bytes s1.sentList = bytes rest :=
            bytes_congr (map_packet_of_frame (SameData.removeFromCounts hs1).frames)
          have hsub : (offset - item.size).toNat = offset.toNat - item.packet.length := by
            rw [UInt32.toNat_sub_of_le _ _ hall, hsize]
          obtain ⟨h2, hlist2, happ2, hhigh2, hid2⟩ := ih h1 (by omega) hs
          rw [hsub, hsize, Nat.add_assoc, Nat.add_sub_cancel' hle] at h2
          have heq := removeFromCounts_eq hs1
          rw [hsub] at hlist2
          rw [dropBytes, if_pos hle]
          rw [heq] at hlist2 happ2 hhigh2 hid2
          exact ⟨h2, hlist2, happ2, hhigh2, hid2⟩
        · have hlt : offset.toNat < item.packet.length := by
            have hnot := mt UInt32.le_iff_toNat_le.mpr hall
            omega
          have heq := removeFromCounts_eq hs
          refine ⟨(h.discard (k := offset) ?_ ?_ ?_ ?_).sameData (SameData.removeFromCounts hs), ?_, by rw [heq], by rw [heq],
            by rw [heq]⟩
          · rw [hl, bytes_cons]
            omega
          · rw [hl, content_cons, content_cons, List.drop_append_of_le_length hlt.le]
          · refine ⟨?_, ?_⟩
            · show item.startSeq + offset = _
              rw [hstarts.1, ← seqAt_add, UInt32.ofNat_toNat]
            · show Starts isn (base + offset.toNat + (item.packet.drop offset.toNat).length) rest
              rw [List.length_drop, Nat.add_assoc, Nat.add_sub_cancel' hlt.le]
              exact hstarts.2
          · refine List.forall_mem_cons.mpr ⟨?_, fun t ht => hne t (List.mem_cons_of_mem item ht)⟩
            rw [← List.length_pos_iff, List.length_drop]
            exact Nat.sub_pos_of_lt hlt
          · rw [heq, dropBytes, if_neg (by omega), UInt32.ofNat_toNat]

theorem discardUpTo (hseq : (seq - s.firstByteSeq).toNat ≤ bytes s.sentList)
    (hs : s.discardUpTo seq = some s') : Streams isn stream (base + (seq - s.firstByteSeq).toNat) s' := by
  have hbound := h.bound
  obtain ⟨j, hj, rfl⟩ : ∃ j ≤ bytes s.sentList, seq = seqAt isn (base + j) := by
    refine ⟨(seq - s.firstByteSeq).toNat, hseq, ?_⟩
    rw [← seqAt_add, UInt32.ofNat_toNat, ← h.first, UInt32.add_comm, UInt32.sub_add_cancel]
  have hoffset : seqAt isn (base + j) - s.firstByteSeq = UInt32.ofNat j := by
    rw [h.first, seqAt_sub_seqAt (by omega), Nat.add_sub_cancel_left]
  have htonat : (UInt32.ofNat j).toNat = j := UInt32.toNat_ofNat_of_lt' (show j < 2 ^ 32 by omega)
  rw [hoffset, htonat]
  rw [TcpTxBuffer.discardUpTo, h.first, ge_seqAt (by omega) (by omega)] at hs
  split_ifs at hs with hold
  · obtain rfl := Option.some.inj hs
    have hzero : j = 0 := by
      have hle := of_decide_eq_true hold
      omega
    rwa [hzero, Nat.add_zero]
  · obtain ⟨s1, hs1, hs⟩ := Option.bind_eq_some_iff.mp hs
    obtain ⟨s2, hs2, hs⟩ := Option.bind_eq_some_iff.mp hs
    have h1 : Streams isn stream (base + j) s1 := by
      rw [← h.first, toUInt32_sub, hoffset] at hs1
      have h1 := (h.discardLoop (htonat.le.trans hj) hs1).1
      rwa [htonat] at h1
    have h1' : (if s1.size == 0 then { s1 with firstByteSeq := seqAt isn (base + j) } else s1) = s1 := by
      rw [← h1.first]
      exact ite_self s1
    rw [h1'] at hs2
    have h2 := h1.sameData (SameData.moveSackFromHead hs2)
    rw [Option.ite_none_right_eq_some] at hs
    obtain ⟨-, hs⟩ := hs
    rw [Option.ite_none_right_eq_some] at hs
    obtain rfl := Option.some.inj hs.2
    split_ifs
    · exact h2.sameData ⟨rfl, rfl, rfl, rfl, rfl, rfl⟩
    · exact h2

theorem resetSentList : Streams isn stream base s.resetSentList := by
  have hbytes : bytes [] + bytes s.resetSentList.appList = bytes s.sentList + bytes s.appList := by
    rw [bytes_nil, Nat.zero_add, bytes_congr (packets_resetSentList s), bytes_append]
  refine ⟨?_, h.base_le, h.first, trivial, rfl, h.size.trans (congrArg _ hbytes.symm), nonempty_resetSentList h.nonempty,
    hbytes.trans_lt h.bound⟩
  show TcpTxBuffer.content s.resetSentList.appList = _
  rw [← h.content, ← content_append, TcpTxBuffer.content, packets_resetSentList]
  rfl

theorem resetLastSegmentSent : Streams isn stream base s.resetLastSegmentSent := by
  rw [TcpTxBuffer.resetLastSegmentSent]
  cases hitem : s.sentList.getLast? with
  | none => exact h
  | some item =>
    have hl : s.sentList = s.sentList.dropLast ++ [item] := (List.dropLast_append_getLast? item hitem).symm
    have hall := giveBack_eq hitem s.appList
    have htotal := bytes_giveBack hitem s.appList
    refine ⟨?_, h.base_le, h.first, ?_, ?_, h.size.trans (congrArg _ htotal.symm), fun t ht => h.nonempty t (hall ▸ ht),
      htotal.trans_lt h.bound⟩
    · rw [← h.content, ← content_append, ← content_append]
      exact congrArg TcpTxBuffer.content hall
    · have hstarts := h.starts
      rw [hl] at hstarts
      exact (starts_append.mp hstarts).1
    · show s.sentSize - packetSize item.packet = _
      rw [h.sentSize, bytes_dropLast hitem, UInt32.ofNat_add, packetSize, UInt32.add_sub_cancel]

end

theorem start (isn : SequenceNumber32) (maxBuffer dupAckThresh : UInt32) (sackEnabled : Bool) :
    Streams isn [] 0 (TcpTxBuffer.start isn maxBuffer dupAckThresh sackEnabled) :=
  ⟨rfl, le_rfl, (UInt32.add_zero isn).symm, trivial, rfl, rfl, fun _ ht => absurd ht List.not_mem_nil,
    show 0 + 0 < 2 ^ 31 by omega⟩

end Streams

/-! ## Runs -/

def TxCall.added (s : TcpTxBuffer) : TxCall → List UInt8
  | .add p => if packetSize p ≤ s.available then p else []
  | _ => []

def TxCall.discarded (s : TcpTxBuffer) : TxCall → ℕ
  | .discardUpTo seq => (seq - s.firstByteSeq).toNat
  | _ => 0

/-- The calls that are made: copies and acknowledgements from the head to the end of the sent data, with less than 2 ^ 31
bytes in the buffer. -/
def TxCall.allowed (s : TcpTxBuffer) : TxCall → Bool
  | .add p => bytes (s.add p).sentList + bytes (s.add p).appList < 2 ^ 31
  | .copyFromSequence _ seq => (seq - s.firstByteSeq).toNat ≤ bytes s.sentList
  | .discardUpTo seq => (seq - s.firstByteSeq).toNat ≤ bytes s.sentList
  | _ => true

def TxCall.allowedFrom (s : TcpTxBuffer) : List TxCall → Bool
  | [] => true
  | c :: rest => c.allowed s && (s.call c).all fun s => allowedFrom s rest

/-- The bytes that a run adds, and how many it discards. -/
def TxCall.streamFrom (s : TcpTxBuffer) : List TxCall → List UInt8 × ℕ
  | [] => ([], 0)
  | c :: rest =>
    match s.call c with
    | none => ([], 0)
    | some s' => (c.added s ++ (streamFrom s' rest).1, c.discarded s + (streamFrom s' rest).2)

namespace Streams

variable {isn : SequenceNumber32} {stream : List UInt8} {base : ℕ} {s s' : TcpTxBuffer} {c : TxCall}

/-- **One call**. -/
theorem call (h : Streams isn stream base s) (hc : c.allowed s = true) (hs : s.call c = some s') :
    Streams isn (stream ++ c.added s) (base + c.discarded s) s' := by
  have hkeep : ∀ {k : ℕ}, Streams isn stream (base + k) s' → Streams isn (stream ++ []) (base + k) s' := by
    intro k hk
    rwa [List.append_nil]
  have hsame : SameData s s' → Streams isn (stream ++ []) (base + 0) s' := fun hd => hkeep (h.sameData hd)
  cases c with
  | add p =>
    obtain rfl := Option.some.inj hs
    exact h.add p.2 (of_decide_eq_true hc)
  | copyFromSequence numBytes seq =>
    obtain ⟨⟨r, s1⟩, hcopy, rfl⟩ := Option.map_eq_some_iff.mp hs
    exact hkeep (h.copyLoop hcopy)
  | discardUpTo seq =>
    exact hkeep (h.discardUpTo (of_decide_eq_true hc) hs)
  | update list =>
    obtain ⟨⟨r, s1⟩, hupdate, rfl⟩ := Option.map_eq_some_iff.mp hs
    exact hsame (SameData.update hupdate)
  | resetRenoSack =>
    obtain rfl := Option.some.inj hs
    exact hsame (SameData.resetRenoSack s)
  | resetSentList =>
    obtain rfl := Option.some.inj hs
    exact hkeep h.resetSentList
  | resetLastSegmentSent =>
    obtain rfl := Option.some.inj hs
    exact hkeep h.resetLastSegmentSent
  | setSentListLost resetSack => exact hsame (SameData.setSentListLost hs)
  | deleteRetransmittedFlagFromHead =>
    obtain rfl := Option.some.inj hs
    exact hsame (SameData.deleteRetransmittedFlagFromHead s)
  | markHeadAsLost =>
    obtain rfl := Option.some.inj hs
    exact hsame (SameData.markHeadAsLost s)
  | addRenoSack => exact hsame (SameData.addRenoSack hs)

theorem runFrom (h : Streams isn stream base s) {calls : List TxCall} (hcalls : TxCall.allowedFrom s calls = true)
    (hs : s.runFrom calls = some s') :
    Streams isn (stream ++ (TxCall.streamFrom s calls).1) (base + (TxCall.streamFrom s calls).2) s' := by
  induction calls generalizing s stream base with
  | nil =>
    obtain rfl := Option.some.inj hs
    rw [TxCall.streamFrom, List.append_nil]
    exact h
  | cons c rest ih =>
    obtain ⟨s1, hs1, hs⟩ := Option.bind_eq_some_iff.mp hs
    rw [TxCall.allowedFrom, Bool.and_eq_true, hs1, Option.all_some] at hcalls
    have hrest := ih (h.call hcalls.1 hs1) hcalls.2 hs
    rw [List.append_assoc, Nat.add_assoc] at hrest
    rw [TxCall.streamFrom, hs1]
    exact hrest

end Streams

/-- **The buffer is the stream** in every state that is reached, and a copy of available data from a number between the head
and the end of the sent data returns the bytes there just when the condition holds. -/
theorem run_stream (isn : SequenceNumber32) (maxBuffer dupAckThresh : UInt32) (sackEnabled : Bool) (calls : List TxCall)
    (s : TcpTxBuffer) (hcalls : TxCall.allowedFrom (start isn maxBuffer dupAckThresh sackEnabled) calls = true)
    (hs : (start isn maxBuffer dupAckThresh sackEnabled).runFrom calls = some s) :
    ∃ stream base, (stream, base) = TxCall.streamFrom (start isn maxBuffer dupAckThresh sackEnabled) calls ∧
      content s.sentList ++ content s.appList = stream.drop base ∧ s.firstByteSeq = seqAt isn base ∧
      ∀ n : UInt32, n ≠ 0 → ∀ j ≤ bytes s.sentList, j < bytes s.sentList + bytes s.appList →
        ((∃ t s', s.copyFromSequence n (seqAt isn (base + j)) = some (some t, s') ∧
          Copied isn stream (base + j) n.toNat t) ↔ s.canCopy n (seqAt isn (base + j)) = true) := by
  have h := (Streams.start isn maxBuffer dupAckThresh sackEnabled).runFrom hcalls hs
  rw [List.nil_append, Nat.zero_add] at h
  exact ⟨_, _, rfl, h.content, h.first, fun n hn j hj hdata => h.copyFromSequence_iff hn hj hdata⟩

/-- Segments before and behind the end of the circle. A copy from inside the first one merges it with the second one. -/
theorem run_stream_wrap : ∃ s, (start 0xfffffffe 32768 1 true).runFrom [.add ⟨[1, 2], by decide⟩, .add ⟨[3, 4, 5], by decide⟩,
      .copyFromSequence 2 0xfffffffe, .copyFromSequence 2 0] = some s ∧
    ∃ stream base, (stream, base) = TxCall.streamFrom (start 0xfffffffe 32768 1 true) [.add ⟨[1, 2], by decide⟩,
        .add ⟨[3, 4, 5], by decide⟩, .copyFromSequence 2 0xfffffffe, .copyFromSequence 2 0] ∧
      content s.sentList ++ content s.appList = stream.drop base ∧ s.firstByteSeq = seqAt 0xfffffffe base ∧
      ∀ n : UInt32, n ≠ 0 → ∀ j ≤ bytes s.sentList, j < bytes s.sentList + bytes s.appList →
        ((∃ t s', s.copyFromSequence n (seqAt 0xfffffffe (base + j)) = some (some t, s') ∧
          Copied 0xfffffffe stream (base + j) n.toNat t) ↔ s.canCopy n (seqAt 0xfffffffe (base + j)) = true) := by
  have hsome : ((start 0xfffffffe 32768 1 true).runFrom [.add ⟨[1, 2], by decide⟩, .add ⟨[3, 4, 5], by decide⟩,
      .copyFromSequence 2 0xfffffffe, .copyFromSequence 2 0]).isSome = true := by decide
  obtain ⟨s, hs⟩ := Option.isSome_iff_exists.mp hsome
  exact ⟨s, hs, run_stream 0xfffffffe 32768 1 true _ s (by decide) hs⟩

/-- A request across the end of the sent data and of the circle has no item, and the same request elsewhere has one. A
request from inside a segment merges it with a sacked one. -/
theorem not_run_stream :
    ((start 0xfffffffe 32768 3 true).runFrom [.add ⟨[1, 2], by decide⟩, .copyFromSequence 2 0xfffffffe,
      .add ⟨[3, 4], by decide⟩]).map (fun s => (s.copyFromSequence 4 0xfffffffe).isNone) = some true ∧
    ((start 0 32768 3 true).runFrom [.add ⟨[1, 2], by decide⟩, .copyFromSequence 2 0,
      .add ⟨[3, 4], by decide⟩]).map (fun s => (s.copyFromSequence 4 0).isNone) = some false ∧
    ((start 0 32768 3 true).runFrom [.add ⟨[1, 2, 3, 4], by decide⟩, .copyFromSequence 2 0, .copyFromSequence 2 2,
      .update [(2, 4)]]).map (fun s => (s.copyFromSequence 2 1).isNone) = some true := by
  refine ⟨?_, ?_, ?_⟩
  · decide
  · decide
  · decide

end TcpTxBuffer

end Ns3Ndn.Internet
