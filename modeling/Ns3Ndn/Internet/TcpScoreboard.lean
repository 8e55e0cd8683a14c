import Ns3Ndn.Internet.TcpTxBuffer

/-!
# The counters of the scoreboard

The counters of a send buffer are the bytes of the segments with a flag, and no segment is both sacked and lost. Two
operations do not keep this. One takes the last segment back with the flags that it has, the other sacks a segment that may
be lost.

* `flagged`: the bytes of the items with a flag; `Rearranged`: what splitting and merging keep;
* `Counted`: the invariant, with a lemma for each operation; `TxCall.keeps`: the condition;
* **`run_counted`**: the counters are right after every run of calls that meet the condition.
-/

namespace Ns3Ndn.Internet

open Network SequenceNumber32 SliceLib

/-! ## Bytes of items -/

def flagged (f : TcpTxItem → Bool) (l : List TcpTxItem) : ℕ := (l.map fun t => if f t then t.packet.length else 0).sum

def bytes (l : List TcpTxItem) : ℕ := flagged (fun _ => true) l

section Flagged

variable {f : TcpTxItem → Bool} {l l' : List TcpTxItem} {t : TcpTxItem}

@[simp] theorem flagged_nil (f : TcpTxItem → Bool) : flagged f [] = 0 := rfl

@[simp] theorem flagged_cons (f : TcpTxItem → Bool) (t : TcpTxItem) (l : List TcpTxItem) :
    flagged f (t :: l) = (if f t then t.packet.length else 0) + flagged f l := by
  rw [flagged, List.map_cons, List.sum_cons]
  rfl

@[simp] theorem flagged_append (f : TcpTxItem → Bool) (l l' : List TcpTxItem) :
    flagged f (l ++ l') = flagged f l + flagged f l' := by
  rw [flagged, List.map_append, List.sum_append]
  rfl

@[simp] theorem bytes_nil : bytes [] = 0 := rfl

@[simp] theorem bytes_cons (t : TcpTxItem) (l : List TcpTxItem) : bytes (t :: l) = t.packet.length + bytes l :=
  flagged_cons _ t l

@[simp] theorem bytes_append (l l' : List TcpTxItem) : bytes (l ++ l') = bytes l + bytes l' := flagged_append _ l l'

theorem bytes_congr {l l' : List TcpTxItem} (h : l'.map TcpTxItem.packet = l.map TcpTxItem.packet) : bytes l' = bytes l := by
  have hmap : ∀ m : List TcpTxItem, bytes m = ((m.map TcpTxItem.packet).map List.length).sum := by
    intro m
    rw [List.map_map]
    rfl
  rw [hmap, hmap, h]

theorem nonempty_of_packets {l l' : List TcpTxItem} (h : l'.map TcpTxItem.packet = l.map TcpTxItem.packet)
    (hne : ∀ t ∈ l, t.packet ≠ []) : ∀ t ∈ l', t.packet ≠ [] := by
  intro t ht
  have hmem : t.packet ∈ l.map TcpTxItem.packet := h ▸ List.mem_map_of_mem ht
  obtain ⟨u, hu, heq⟩ := List.mem_map.mp hmem
  rw [← heq]
  exact hne u hu

theorem flagged_le_bytes (f : TcpTxItem → Bool) (l : List TcpTxItem) : flagged f l ≤ bytes l := by
  induction l with
  | nil => exact le_rfl
  | cons t l ih =>
    rw [flagged_cons, bytes_cons]
    split_ifs <;> omega

theorem flagged_eq_zero (h : ∀ t ∈ l, f t = false) : flagged f l = 0 := by
  induction l with
  | nil => rfl
  | cons t l ih =>
    rw [flagged_cons, h t List.mem_cons_self, if_neg Bool.false_ne_true, ih fun t' ht => h t' (List.mem_cons_of_mem t ht)]

theorem flagged_add_le {g : TcpTxItem → Bool} (h : ∀ t ∈ l, f t = true → g t = false) :
    flagged f l + flagged g l ≤ bytes l := by
  induction l with
  | nil => exact le_rfl
  | cons t l ih =>
    have hl := ih fun t' ht => h t' (List.mem_cons_of_mem t ht)
    have ht := h t List.mem_cons_self
    rw [flagged_cons, flagged_cons, bytes_cons]
    cases hf : f t
    · rw [if_neg Bool.false_ne_true]
      split_ifs <;> omega
    · rw [ht hf, if_pos rfl, if_neg Bool.false_ne_true]
      omega

end Flagged

/-! ## Splitting and merging -/

def Starts (isn : SequenceNumber32) : ℕ → List TcpTxItem → Prop
  | _, [] => True
  | i, t :: rest => t.startSeq = seqAt isn i ∧ Starts isn (i + t.packet.length) rest

theorem starts_append {isn : SequenceNumber32} {i : ℕ} {l l' : List TcpTxItem} :
    Starts isn i (l ++ l') ↔ Starts isn i l ∧ Starts isn (i + bytes l) l' := by
  induction l generalizing i with
  | nil => exact iff_of_eq (true_and _).symm
  | cons t l ih => rw [List.cons_append, Starts, Starts, ih, bytes_cons, and_assoc, Nat.add_assoc]

def TcpTxItem.Clean (t : TcpTxItem) : Prop := t.lost = false ∧ t.retrans = false ∧ t.sacked = false

/-- What does not depend on flags. -/
def TcpTxItem.frame (t : TcpTxItem) : ℕ × SequenceNumber32 × List UInt8 := (t.id, t.startSeq, t.packet)

theorem map_packet_of_frame {l l' : List TcpTxItem} (h : l'.map TcpTxItem.frame = l.map TcpTxItem.frame) :
    l'.map TcpTxItem.packet = l.map TcpTxItem.packet := by
  have hmap : ∀ m : List TcpTxItem, m.map TcpTxItem.packet = (m.map TcpTxItem.frame).map fun t => t.2.2 := by
    intro m
    rw [List.map_map]
    rfl
  rw [hmap, hmap, h]

/-- What splitting and merging keep of a list, where the counter is of `c` bytes beside those of the list. -/
structure Rearranged (c : ℕ) (l : List TcpTxItem) (retrans : UInt32) (l' : List TcpTxItem) (retrans' : UInt32) : Prop where
  content : (l'.map TcpTxItem.packet).flatten = (l.map TcpTxItem.packet).flatten
  starts (isn : SequenceNumber32) (i : ℕ) : Starts isn i l → Starts isn i l'
  bytes : bytes l' = bytes l
  lost : flagged TcpTxItem.lost l' = flagged TcpTxItem.lost l
  sacked : flagged TcpTxItem.sacked l' = flagged TcpTxItem.sacked l
  flags : ∀ P : Bool → Bool → Prop, (∀ t ∈ l, P t.lost t.sacked) → ∀ t ∈ l', P t.lost t.sacked
  nonempty : (∀ t ∈ l, t.packet ≠ []) → ∀ t ∈ l', t.packet ≠ []
  clean : (∀ t ∈ l, t.retrans = false) → retrans' = retrans ∧ ∀ t ∈ l', t.retrans = false
  retrans : retrans = UInt32.ofNat (flagged TcpTxItem.retrans l + c) →
    retrans' = UInt32.ofNat (flagged TcpTxItem.retrans l' + c)

namespace Rearranged

variable {c : ℕ} {l l' l'' before after : List TcpTxItem} {r r' r'' : UInt32}

theorem refl (c : ℕ) (l : List TcpTxItem) (r : UInt32) : Rearranged c l r l r :=
  ⟨rfl, fun _ _ => id, rfl, rfl, rfl, fun _ h => h, id, fun h => ⟨rfl, h⟩, id⟩

theorem trans (h : Rearranged c l r l' r') (h' : Rearranged c l' r' l'' r'') : Rearranged c l r l'' r'' := by
  refine ⟨h'.content.trans h.content, fun isn i => h'.starts isn i ∘ h.starts isn i, h'.bytes.trans h.bytes, h'.lost.trans h.lost, h'.sacked.trans h.sacked,
    fun P hP => h'.flags P (h.flags P hP), fun hne => h'.nonempty (h.nonempty hne), fun hclean => ?_, fun hr => h'.retrans (h.retrans hr)⟩
  obtain ⟨heq, hclean'⟩ := h.clean hclean
  obtain ⟨heq', hclean''⟩ := h'.clean hclean'
  exact ⟨heq'.trans heq, hclean''⟩

theorem inside (h : Rearranged (c + flagged TcpTxItem.retrans before + flagged TcpTxItem.retrans after) l r l' r') :
    Rearranged c (before ++ (l ++ after)) r (before ++ (l' ++ after)) r' := by
  have hmem : ∀ {P : TcpTxItem → Prop} {m : List TcpTxItem}, (∀ t ∈ before ++ (m ++ after), P t) ↔
      (∀ t ∈ before, P t) ∧ (∀ t ∈ m, P t) ∧ ∀ t ∈ after, P t := by
    intro P m
    simp only [List.mem_append, or_imp, forall_and]
  refine ⟨?_, fun isn i hi => ?_, ?_, ?_, ?_, fun P hP => ?_, fun hne => ?_, fun hclean => ?_, fun hr => ?_⟩
  · simp only [List.map_append, List.flatten_append, h.content]
  · rw [starts_append, starts_append] at hi ⊢
    exact ⟨hi.1, h.starts _ _ hi.2.1, h.bytes ▸ hi.2.2⟩
  · simp only [bytes_append, h.bytes]
  · simp only [flagged_append, h.lost]
  · simp only [flagged_append, h.sacked]
  · obtain ⟨hbefore, hl, hafter⟩ := hmem.mp hP
    exact hmem.mpr ⟨hbefore, h.flags P hl, hafter⟩
  · obtain ⟨hbefore, hl, hafter⟩ := hmem.mp hne
    exact hmem.mpr ⟨hbefore, h.nonempty hl, hafter⟩
  · obtain ⟨hbefore, hl, hafter⟩ := hmem.mp hclean
    obtain ⟨heq, hl'⟩ := h.clean hl
    exact ⟨heq, hmem.mpr ⟨hbefore, hl', hafter⟩⟩
  · have hsum : ∀ m : List TcpTxItem, flagged TcpTxItem.retrans (before ++ (m ++ after)) + c =
        flagged TcpTxItem.retrans m + (c + flagged TcpTxItem.retrans before + flagged TcpTxItem.retrans after) := by
      intro m
      rw [flagged_append, flagged_append]
      omega
    rw [hsum] at hr ⊢
    exact h.retrans hr

end Rearranged

section SplitMerge

variable {t t1 t2 a b : TcpTxItem} {id c : ℕ} {size r r' : UInt32}

theorem split_eq (h : t.split id size = some (a, b)) : size.toNat ≤ t.packet.length ∧
    a = { t with id := id, packet := t.packet.take size.toNat } ∧
    b = { t with packet := t.packet.drop size.toNat, startSeq := t.startSeq + size } := by
  obtain ⟨p, hp, heq⟩ := Option.map_eq_some_iff.mp h
  obtain ⟨rfl, rfl⟩ := Prod.mk.inj heq
  rw [fragmentOf] at hp
  split_ifs at hp with hle
  have hle' : size.toNat ≤ t.packet.length := by simpa using hle
  obtain rfl := Option.some.inj hp
  refine ⟨hle', ?_, rfl⟩
  congr 1
  simp [slice]

theorem rearranged_split (h : t.split id size = some (a, b)) (hpos : size ≠ 0) (hlt : size ≠ t.size) (r : UInt32) :
    Rearranged c [t] r [a, b] r := by
  obtain ⟨hle, rfl, rfl⟩ := split_eq h
  have hsum : ∀ x : Bool, (if x then (t.packet.take size.toNat).length else 0) +
      ((if x then (t.packet.drop size.toNat).length else 0) + 0) = (if x then t.packet.length else 0) + 0 := by
    intro x
    rw [List.length_take, List.length_drop]
    split_ifs <;> omega
  have hsize : 0 < size.toNat ∧ size.toNat < t.packet.length := by
    refine ⟨Nat.pos_of_ne_zero fun hzero => hpos (UInt32.toNat_inj.mp hzero), lt_of_le_of_ne hle fun heq => hlt ?_⟩
    rw [TcpTxItem.size, packetSize, ← heq, UInt32.ofNat_toNat]
  refine ⟨?_, fun isn i hi => ?_, hsum true, hsum t.lost, hsum t.sacked, fun P hP => ?_, fun _ => ?_,
    fun hclean => ⟨rfl, ?_⟩, fun hr => ?_⟩
  · simp
  · refine ⟨hi.1, ?_, trivial⟩
    show t.startSeq + size = seqAt isn (i + (t.packet.take size.toNat).length)
    rw [hi.1, List.length_take, min_eq_left hle, ← seqAt_add, UInt32.ofNat_toNat]
  · have ht := hP t (List.mem_singleton_self t)
    simp [ht]
  · simp only [List.forall_mem_cons, ← List.length_pos_iff, List.length_take, List.length_drop]
    exact ⟨by omega, by omega, fun x hx => absurd hx List.not_mem_nil⟩
  · have ht := hclean t (List.mem_singleton_self t)
    simp [ht]
  · rw [hr]
    congr 2
    exact (hsum t.retrans).symm

theorem merge_eq (h : t1.merge t2 r = some (t, r')) : t1.sacked = t2.sacked ∧ t1.lost = t2.lost ∧
    t = { t1 with packet := t1.packet ++ t2.packet, retrans := t1.retrans && t2.retrans } ∧
    r' = if t1.retrans = t2.retrans then r else if t1.retrans then r - t1.size else r - t2.size := by
  rw [TcpTxItem.merge] at h
  by_cases hsame : (t1.sacked == t2.sacked && t1.lost == t2.lost) = true
  · rw [if_pos hsame] at h
    obtain ⟨hsacked, hlost⟩ := Bool.and_eq_true_iff.mp hsame
    refine ⟨beq_iff_eq.mp hsacked, beq_iff_eq.mp hlost, ?_⟩
    obtain ⟨rfl, rfl⟩ := Prod.mk.inj (Option.some.inj h)
    obtain ⟨i1, q1, p1, l1, x1, s1⟩ := t1
    obtain ⟨i2, q2, p2, l2, x2, s2⟩ := t2
    cases x1 <;> cases x2 <;> exact ⟨rfl, rfl⟩
  · rw [if_neg hsame] at h
    exact absurd h (by simp)

theorem rearranged_merge (h : t1.merge t2 r = some (t, r')) : Rearranged c [t1, t2] r [t] r' := by
  obtain ⟨hsacked, hlost, rfl, rfl⟩ := merge_eq h
  have hsum : ∀ x y : Bool, x = y → (if x then (t1.packet ++ t2.packet).length else 0) + 0 =
      (if x then t1.packet.length else 0) + ((if y then t2.packet.length else 0) + 0) := by
    rintro x _ rfl
    rw [List.length_append]
    split_ifs <;> omega
  refine ⟨?_, fun isn i hi => ⟨hi.1, trivial⟩, hsum true true rfl, hsum _ _ hlost, hsum _ _ hsacked, fun P hP => ?_,
    fun hne => ?_, fun hclean => ?_, fun hr => ?_⟩
  · simp
  · have ht := hP t1 List.mem_cons_self
    simp [ht]
  · have ht := hne t1 List.mem_cons_self
    simp [ht]
  · have ht1 := hclean t1 List.mem_cons_self
    have ht2 := hclean t2 (List.mem_cons_of_mem t1 (List.mem_singleton_self t2))
    simp [ht1, ht2]
  · rw [hr]
    simp only [flagged_cons, flagged_nil, List.length_append]
    cases h1 : t1.retrans <;> cases h2 : t2.retrans
    · simp
    · simp [TcpTxItem.size, packetSize, UInt32.ofNat_add, UInt32.add_comm]
    · simp [TcpTxItem.size, packetSize, UInt32.ofNat_add, UInt32.add_comm]
    · simp

end SplitMerge

namespace TcpTxBuffer

def Found.list (f : Found) : List TcpTxItem := f.before ++ f.item :: f.after

def Walk.list : Walk → List TcpTxItem
  | .found f => f.list
  | .again list _ _ => list

def Walk.retrans : Walk → UInt32
  | .found f => f.retrans
  | .again _ retrans _ => retrans

section Walks

variable {sent : Bool} {first seq start : SequenceNumber32} {n r : UInt32} {id c fuel : ℕ} {before l : List TcpTxItem}
  {w : Walk} {f : Found}

/-- **One walk** splits an item or merges two. -/
theorem walk_rearranged (hn : n ≠ 0) (h : walk sent first n seq r id before start l = some w) :
    Rearranged c (before ++ l) r w.list w.retrans := by
  induction l generalizing before start with
  | nil => cases h
  | cons t rest ih =>
    have hsplit : ∀ {size a b}, size ≠ 0 → size ≠ t.size → t.split id size = some (a, b) →
        Rearranged c (before ++ t :: rest) r (before ++ a :: b :: rest) r := by
      intro size a b hpos hlt hab
      have hinside := (rearranged_split (c := c + flagged TcpTxItem.retrans before + flagged TcpTxItem.retrans rest) hab
        hpos hlt r).inside
      simpa using hinside
    rw [walk.eq_def] at h
    dsimp only at h
    split_ifs at h with hassert hin hstart hend hequal hshort hgt
    · obtain rfl := Option.some.inj h
      exact Rearranged.refl c _ r
    · obtain ⟨⟨a, b⟩, hab, rfl⟩ := Option.map_eq_some_iff.mp h
      exact hsplit hn (by simpa using hequal) hab
    · cases rest with
      | nil =>
        obtain rfl := Option.some.inj h
        exact Rearranged.refl c _ r
      | cons next rest =>
        obtain ⟨⟨t', r'⟩, hmerge, rfl⟩ := Option.map_eq_some_iff.mp h
        have hinside := (rearranged_merge (c := c + flagged TcpTxItem.retrans before + flagged TcpTxItem.retrans rest)
          hmerge).inside
        simpa [Walk.list, Walk.retrans] using hinside
    · obtain ⟨⟨a, b⟩, hab, rfl⟩ := Option.map_eq_some_iff.mp h
      rw [toUInt32_sub] at hab
      refine hsplit (fun hzero => hstart ?_) (fun hsize => ?_) hab
      · rw [beq_iff_eq, ← UInt32.sub_add_cancel seq start, hzero, UInt32.zero_add]
      · rw [← hsize, UInt32.add_comm, UInt32.sub_add_cancel, lt, bne_self_eq_false, Bool.and_false] at hin
        exact Bool.false_ne_true hin
    · have hih := ih h
      rwa [List.append_assoc] at hih

/-- **Finding an item** splits and merges. -/
theorem getPacketFromList_rearranged (hn : n ≠ 0) (h : getPacketFromList sent first start n seq fuel l r id = some f) :
    Rearranged c l r f.list f.retrans := by
  induction fuel generalizing l r id with
  | zero => cases h
  | succ fuel ih =>
    rw [getPacketFromList] at h
    obtain ⟨w, hw, h⟩ := Option.bind_eq_some_iff.mp h
    have hwalk := walk_rearranged (c := c) hn hw
    rw [List.nil_append] at hwalk
    cases w with
    | found f' =>
      obtain rfl := Option.some.inj h
      exact hwalk
    | again l' r' id' => exact hwalk.trans (ih h)

end Walks

/-- **What `CopyFromSequence` keeps** is what both kinds of segments keep. -/
theorem copyLoop_keeps {P : TcpTxBuffer → Prop} {s s' : TcpTxBuffer} (h : P s) {seq : SequenceNumber32}
    (hsent : ∀ {n t s'}, n ≠ 0 → s.getTransmittedSegment n seq = some (t, s') → P s')
    (hnew : ∀ {n t s'}, n ≠ 0 → s.getNewSegment n = some (t, s') → P s')
    {fuel : ℕ} {n : UInt32} {r : Option TcpTxItem} (hs : s.copyLoop fuel n seq = some (r, s')) : P s' := by
  induction fuel generalizing n with
  | zero => cases hs
  | succ fuel ih =>
    rw [copyLoop] at hs
    dsimp only at hs
    split_ifs at hs with hbefore hzero hend hfresh hequal hpart
    · obtain ⟨-, rfl⟩ := Prod.mk.inj (Option.some.inj hs)
      exact h
    · obtain ⟨⟨t, s''⟩, hr, hs⟩ := Option.bind_eq_some_iff.mp hs
      split_ifs at hs
      obtain ⟨-, rfl⟩ := Prod.mk.inj (Option.some.inj hs)
      exact hsent (fun hn => hzero (beq_iff_eq.mpr hn)) hr
    · obtain ⟨⟨t, s''⟩, hr, hs⟩ := Option.bind_eq_some_iff.mp hs
      split_ifs at hs
      obtain ⟨-, rfl⟩ := Prod.mk.inj (Option.some.inj hs)
      exact hnew (fun hn => hzero (beq_iff_eq.mpr hn)) hr
    · exact ih hs

/-! ## The invariant -/

/-- The segments with bytes behind the first `n`. -/
def behind : ℕ → List TcpTxItem → List TcpTxItem
  | _, [] => []
  | n, t :: rest => if t.packet.length ≤ n then behind (n - t.packet.length) rest else t :: rest

/-- No flag of a lost segment is in the way when the flag of a sacked head goes to another segment. -/
def movable : List TcpTxItem → Bool
  | [] => true
  | head :: tail => ! head.sacked || (tail.find? fun t => ! t.sacked).all fun t => ! t.lost

theorem movable_behind {l : List TcpTxItem} (h : ∀ t ∈ l, t.sacked = false) (n : ℕ) : movable (behind n l) = true := by
  induction l generalizing n with
  | nil => rfl
  | cons t l ih =>
    rw [behind]
    split_ifs
    · exact ih (fun t' ht => h t' (List.mem_cons_of_mem t ht)) _
    · rw [movable, h t List.mem_cons_self]
      rfl

/-- **The counters are right**, and no segment is both sacked and lost. -/
structure Counted (s : TcpTxBuffer) : Prop where
  lostOut : s.lostOut = UInt32.ofNat (flagged TcpTxItem.lost s.sentList)
  sackedOut : s.sackedOut = UInt32.ofNat (flagged TcpTxItem.sacked s.sentList)
  retrans : s.retrans = UInt32.ofNat (flagged TcpTxItem.retrans s.sentList)
  sentSize : s.sentSize = UInt32.ofNat (bytes s.sentList)
  size : s.size = UInt32.ofNat (bytes s.sentList + bytes s.appList)
  bound : bytes s.sentList + bytes s.appList ≤ s.maxBuffer.toNat
  apart : ∀ t ∈ s.sentList, t.lost = true → t.sacked = false
  clean : ∀ t ∈ s.appList, t.Clean
  nonempty : ∀ t ∈ s.sentList ++ s.appList, t.packet ≠ []

theorem packets_resetSentList (s : TcpTxBuffer) :
    s.resetSentList.appList.map TcpTxItem.packet = (s.sentList ++ s.appList).map TcpTxItem.packet := by
  rw [resetSentList, List.map_append, List.map_append, List.map_map]
  rfl

theorem nonempty_resetSentList {s : TcpTxBuffer} (h : ∀ t ∈ s.sentList ++ s.appList, t.packet ≠ []) :
    ∀ t ∈ s.resetSentList.sentList ++ s.resetSentList.appList, t.packet ≠ [] := by
  show ∀ t ∈ s.resetSentList.appList, t.packet ≠ []
  rwa [← List.forall_mem_map (P := (· ≠ [])), packets_resetSentList, List.forall_mem_map]

/-- What `Add` puts behind the other segments. -/
theorem bytes_added (l : List TcpTxItem) (id : ℕ) (p : List UInt8) :
    bytes (l ++ [{ id := id, packet := p }]) = bytes l + p.length := by
  rw [bytes_append, bytes_cons, bytes_nil, Nat.add_zero]

theorem nonempty_added {l l' : List TcpTxItem} (h : ∀ t ∈ l ++ l', t.packet ≠ []) {p : List UInt8} (hp : 0 < packetSize p) (id : ℕ) :
    ∀ t ∈ l ++ (l' ++ [{ id := id, packet := p }]), t.packet ≠ [] := by
  rw [← List.append_assoc, List.forall_mem_append, List.forall_mem_singleton]
  refine ⟨h, ?_⟩
  rintro rfl
  exact absurd hp (by decide)

theorem bytes_dropLast {l : List TcpTxItem} {item : TcpTxItem} (hlast : l.getLast? = some item) :
    bytes l = bytes l.dropLast + item.packet.length := by
  conv_lhs => rw [← List.dropLast_append_getLast? item hlast]
  rw [bytes_append, bytes_cons, bytes_nil, Nat.add_zero]

/-- The last segment goes back to the front of the other list. -/
theorem giveBack_eq {l : List TcpTxItem} {item : TcpTxItem} (hlast : l.getLast? = some item) (l' : List TcpTxItem) :
    l.dropLast ++ item :: l' = l ++ l' := by
  rw [List.append_cons, List.dropLast_append_getLast? item hlast]

theorem bytes_giveBack {l : List TcpTxItem} {item : TcpTxItem} (hlast : l.getLast? = some item) (l' : List TcpTxItem) :
    bytes l.dropLast + bytes (item :: l') = bytes l + bytes l' := by
  rw [← bytes_append, giveBack_eq hlast, bytes_append]

theorem flagged_cons_of_ne {f : TcpTxItem → Bool} {t : TcpTxItem} (l : List TcpTxItem) (h : f t = false) :
    flagged f (t :: l) = flagged f l := by
  rw [flagged_cons, h, if_neg Bool.false_ne_true, Nat.zero_add]

theorem flagged_cons_of_eq {f : TcpTxItem → Bool} {t : TcpTxItem} (l : List TcpTxItem) (h : f t = true) :
    flagged f (t :: l) = t.packet.length + flagged f l := by
  rw [flagged_cons, h, if_pos rfl]

theorem counter_sub (f : TcpTxItem → Bool) (t : TcpTxItem) (l : List TcpTxItem) :
    (if f t then UInt32.ofNat (flagged f (t :: l)) - t.size else UInt32.ofNat (flagged f (t :: l))) =
      UInt32.ofNat (flagged f l) := by
  cases h : f t
  · rw [if_neg Bool.false_ne_true, flagged_cons_of_ne l h]
  · rw [if_pos rfl, flagged_cons_of_eq l h, UInt32.ofNat_add, UInt32.add_comm, TcpTxItem.size, packetSize,
      UInt32.add_sub_cancel]

theorem limitBytes_ne_zero {n : UInt32} (hn : n ≠ 0) (seq : SequenceNumber32) {l : List TcpTxItem}
    (hne : ∀ t ∈ l, t.packet ≠ []) (hl : bytes l < 2 ^ 32) : limitBytes n seq l ≠ 0 := by
  have hmin : ∀ x : UInt32, x ≠ 0 → min n x ≠ 0 := by
    intro x hx
    show (if n ≤ x then n else x) ≠ 0
    split_ifs
    · exact hn
    · exact hx
  have hsize : ∀ m : ℕ, 0 < m → m < 2 ^ 32 → UInt32.ofNat m ≠ 0 := by
    intro m hm hlt hzero
    have hnat := congrArg UInt32.toNat hzero
    rw [UInt32.toNat_ofNat_of_lt' hlt] at hnat
    exact absurd hnat (Nat.pos_iff_ne_zero.mp hm)
  induction l with
  | nil => exact hn
  | cons t rest ih =>
    have hpos := List.length_pos_iff.mpr (hne t List.mem_cons_self)
    rw [bytes_cons] at hl
    have ht : t.size ≠ 0 := hsize _ hpos (by omega)
    have hrest := ih (fun t' ht' => hne t' (List.mem_cons_of_mem t ht')) (by omega)
    cases rest with
    | nil =>
      rw [limitBytes]
      split_ifs
      · exact hmin _ ht
      · exact hrest
    | cons next rest =>
      rw [bytes_cons] at hl
      rw [limitBytes]
      split_ifs
      · refine hmin _ ?_
        rw [TcpTxItem.size, TcpTxItem.size, packetSize, packetSize, ← UInt32.ofNat_add]
        exact hsize _ (by omega) (by omega)
      · exact hmin _ ht
      · exact hrest

/-- **Other flags**, with the counters of lost and sacked bytes for them. -/
structure Reflagged (l : List TcpTxItem) (lostOut sackedOut : UInt32) (l' : List TcpTxItem) (lostOut' sackedOut' : UInt32) :
    Prop where
  frames : l'.map TcpTxItem.frame = l.map TcpTxItem.frame
  retrans : flagged TcpTxItem.retrans l' = flagged TcpTxItem.retrans l
  apart : (∀ t ∈ l, t.lost = true → t.sacked = false) → ∀ t ∈ l', t.lost = true → t.sacked = false
  lost (c : ℕ) : lostOut = UInt32.ofNat (flagged TcpTxItem.lost l + c) →
    lostOut' = UInt32.ofNat (flagged TcpTxItem.lost l' + c)
  sacked (c : ℕ) : sackedOut = UInt32.ofNat (flagged TcpTxItem.sacked l + c) →
    sackedOut' = UInt32.ofNat (flagged TcpTxItem.sacked l' + c)

namespace Reflagged

variable {l l' l'' : List TcpTxItem} {a b a' b' a'' b'' : UInt32} {t : TcpTxItem}

theorem refl (l : List TcpTxItem) (a b : UInt32) : Reflagged l a b l a b :=
  ⟨rfl, rfl, id, fun _ => id, fun _ => id⟩

theorem trans (h : Reflagged l a b l' a' b') (h' : Reflagged l' a' b' l'' a'' b'') : Reflagged l a b l'' a'' b'' :=
  ⟨h'.frames.trans h.frames, h'.retrans.trans h.retrans, h'.apart ∘ h.apart, fun c => h'.lost c ∘ h.lost c,
    fun c => h'.sacked c ∘ h.sacked c⟩

theorem append (h : Reflagged l a b l' a' b') (before after : List TcpTxItem) :
    Reflagged (before ++ (l ++ after)) a b (before ++ (l' ++ after)) a' b' := by
  have hsum : ∀ (f : TcpTxItem → Bool) (m : List TcpTxItem) (c : ℕ), flagged f (before ++ (m ++ after)) + c =
      flagged f m + (flagged f before + flagged f after + c) := by
    intro f m c
    rw [flagged_append, flagged_append]
    omega
  refine ⟨?_, ?_, fun hapart t ht => ?_, fun c hc => ?_, fun c hc => ?_⟩
  · simp only [List.map_append, h.frames]
  · simp only [flagged_append, h.retrans]
  · simp only [List.mem_append] at hapart ht
    rcases ht with ht | ht | ht
    · exact hapart t (.inl ht)
    · exact h.apart (fun u hu => hapart u (.inr (.inl hu))) t ht
    · exact hapart t (.inr (.inr ht))
  · rw [hsum] at hc ⊢
    exact h.lost _ hc
  · rw [hsum] at hc ⊢
    exact h.sacked _ hc

theorem cons (t : TcpTxItem) (h : Reflagged l a b l' a' b') : Reflagged (t :: l) a b (t :: l') a' b' := by
  have happend := h.append [t] []
  rwa [List.append_nil, List.append_nil, List.singleton_append, List.singleton_append] at happend

theorem lose (hlost : t.lost = false) (hsacked : t.sacked = false) (l : List TcpTxItem) (a b : UInt32) :
    Reflagged (t :: l) a b ({ t with lost := true } :: l) (a + t.size) b := by
  have hnew : flagged TcpTxItem.lost ({ t with lost := true } :: l) = t.packet.length + flagged TcpTxItem.lost l :=
    flagged_cons_of_eq l rfl
  refine ⟨rfl, rfl, fun hapart => List.forall_mem_cons.mpr ⟨fun _ => hsacked, fun u hu => hapart u ?_⟩, fun c hc => ?_,
    fun c => id⟩
  · exact List.mem_cons_of_mem t hu
  · rw [hc, hnew, flagged_cons_of_ne l hlost, TcpTxItem.size, packetSize, ← UInt32.ofNat_add]
    congr 1
    omega

/-- The head becomes sacked, and is not lost any more. -/
theorem sack (hsacked : t.sacked = false) (l : List TcpTxItem) (a b : UInt32) :
    Reflagged (t :: l) a b ({ t with lost := false, sacked := true } :: l) (if t.lost then a - t.size else a)
      (b + t.size) := by
  have hnew : flagged TcpTxItem.sacked ({ t with lost := false, sacked := true } :: l) =
      t.packet.length + flagged TcpTxItem.sacked l := flagged_cons_of_eq l rfl
  have hold : flagged TcpTxItem.lost ({ t with lost := false, sacked := true } :: l) = flagged TcpTxItem.lost l :=
    flagged_cons_of_ne l rfl
  refine ⟨rfl, rfl, fun hapart => List.forall_mem_cons.mpr ⟨fun h => absurd h Bool.false_ne_true, fun u hu => hapart u ?_⟩,
    fun c hc => ?_, fun c hc => ?_⟩
  · exact List.mem_cons_of_mem t hu
  · rw [hold, hc, UInt32.ofNat_add, UInt32.ofNat_add, ← counter_sub TcpTxItem.lost t l]
    split_ifs
    · rw [UInt32.sub_eq_add_neg, UInt32.sub_eq_add_neg, UInt32.add_assoc, UInt32.add_assoc, UInt32.add_comm (-t.size)]
    · rfl
  · rw [hc, hnew, flagged_cons_of_ne l hsacked, TcpTxItem.size, packetSize, ← UInt32.ofNat_add]
    congr 1
    omega

theorem renoScan {l : List TcpTxItem} {r : List TcpTxItem × TcpTxItem} (h : TcpTxBuffer.renoScan l = some r) (a b : UInt32)
    (hlost : (l.find? fun t => ! t.sacked).all fun t => ! t.lost) : Reflagged l a b r.1 a (b + r.2.size) := by
  induction l generalizing r with
  | nil => cases h
  | cons t rest ih =>
    rw [TcpTxBuffer.renoScan] at h
    cases hsacked : t.sacked
    · rw [hsacked, if_neg Bool.false_ne_true] at h
      obtain rfl := Option.some.inj h
      rw [List.find?_cons_of_pos (by rw [hsacked]; rfl), Option.all_some, Bool.not_eq_true'] at hlost
      have hsack := sack hsacked rest a b
      rw [hlost, if_neg Bool.false_ne_true] at hsack
      rwa [show ({ t with sacked := true } : TcpTxItem) = { t with lost := false, sacked := true } by rw [← hlost]]
    · rw [hsacked, if_pos rfl] at h
      obtain ⟨r', hr', rfl⟩ := Option.map_eq_some_iff.mp h
      rw [List.find?_cons_of_neg (by rw [hsacked]; exact Bool.false_ne_true)] at hlost
      exact (ih hr' hlost).cons t

theorem updateBlock {block : SackBlock} {start : SequenceNumber32} {board : Board} {l : List TcpTxItem}
    {r : List TcpTxItem × Board} (h : TcpTxBuffer.updateBlock block start board l = some r) :
    Reflagged l board.lostOut board.sackedOut r.1 r.2.lostOut r.2.sackedOut := by
  induction l generalizing start board r with
  | nil =>
    obtain rfl := Option.some.inj h
    exact refl _ _ _
  | cons t rest ih =>
    rw [TcpTxBuffer.updateBlock] at h
    by_cases hin : (ge start block.1 && le (start + t.size) block.2) = true
    · rw [if_pos hin] at h
      cases hsacked : t.sacked
      · rw [hsacked, if_neg Bool.false_ne_true] at h
        obtain ⟨r', hr', rfl⟩ := Option.map_eq_some_iff.mp h
        exact (sack hsacked rest _ _).trans ((ih hr').cons _)
      · rw [hsacked, if_pos rfl] at h
        split_ifs at h
        obtain ⟨r', hr', rfl⟩ := Option.map_eq_some_iff.mp h
        exact (ih hr').cons t
    · rw [if_neg hin] at h
      split_ifs at h
      · obtain rfl := Option.some.inj h
        exact refl _ _ _
      · obtain ⟨r', hr', rfl⟩ := Option.map_eq_some_iff.mp h
        exact (ih hr').cons t

theorem updateBlocks {first : SequenceNumber32} {sentSize : UInt32} {blocks : List SackBlock} {l : List TcpTxItem}
    {board : Board} {r : List TcpTxItem × Board × Bool} (h : TcpTxBuffer.updateBlocks first sentSize blocks l board = some r) :
    Reflagged l board.lostOut board.sackedOut r.1 r.2.1.lostOut r.2.1.sackedOut := by
  induction blocks generalizing l board with
  | nil =>
    obtain rfl := Option.some.inj h
    exact refl _ _ _
  | cons block rest ih =>
    rw [TcpTxBuffer.updateBlocks] at h
    split_ifs at h with hout
    · obtain rfl := Option.some.inj h
      exact refl _ _ _
    · obtain ⟨r', hr', h⟩ := Option.bind_eq_some_iff.mp h
      exact (updateBlock hr').trans (ih h)

theorem lostScan (thresh lostOut sackedOut : UInt32) (l : List TcpTxItem) :
    Reflagged l lostOut sackedOut (TcpTxBuffer.lostScan thresh lostOut l).1 (TcpTxBuffer.lostScan thresh lostOut l).2.2
      sackedOut := by
  induction l with
  | nil => exact refl _ _ _
  | cons t rest ih =>
    rw [TcpTxBuffer.lostScan]
    generalize (if t.sacked then (TcpTxBuffer.lostScan thresh lostOut rest).2.1 + 1 else _) = count
    split_ifs with hmark
    · simp only [Bool.and_eq_true, Bool.not_eq_true'] at hmark
      exact (ih.cons t).trans (lose hmark.2 hmark.1.2 _ _ _)
    · exact ih.cons t

end Reflagged

theorem setLost_false (lostOut : UInt32) (l : List TcpTxItem) :
    (setLost false lostOut l).1 = l.map (fun t => { t with lost := t.lost || ! t.sacked, retrans := false }) ∧
      (setLost false lostOut l).2 = lostOut + UInt32.ofNat (flagged TcpTxItem.lost (setLost false lostOut l).1) := by
  induction l generalizing lostOut with
  | nil => exact ⟨rfl, (UInt32.add_zero lostOut).symm⟩
  | cons t l ih =>
    obtain ⟨id, startSeq, packet, lost, retrans, sacked⟩ := t
    rw [setLost]
    cases lost <;> cases sacked
    all_goals
      refine ⟨congrArg (List.cons _) (ih _).1, (ih _).2.trans ?_⟩
      rw [flagged_cons, UInt32.ofNat_add, ← UInt32.add_assoc]
      simp [TcpTxItem.size, packetSize]

theorem setLost_true (lostOut : UInt32) (l : List TcpTxItem) : setLost true lostOut l =
    (l.map fun t => { t with sacked := false, lost := true, retrans := false }, lostOut) := by
  induction l with
  | nil => rfl
  | cons t l ih =>
    rw [setLost, if_pos rfl, ih]
    rfl

theorem splitAfter_append {id : ℕ} {l : List TcpTxItem} {r : List TcpTxItem × List TcpTxItem}
    (h : splitAfter id l = some r) : r.1 ++ r.2 = l := by
  induction l generalizing r with
  | nil => cases h
  | cons t rest ih =>
    rw [splitAfter] at h
    split_ifs at h with hid
    · obtain rfl := Option.some.inj h
      rfl
    · obtain ⟨r', hr', rfl⟩ := Option.map_eq_some_iff.mp h
      exact congrArg (List.cons t) (ih hr')

namespace Counted

variable {s s' : TcpTxBuffer} {t head : TcpTxItem} {tail : List TcpTxItem}

variable (h : Counted s)

include h

theorem bytes_lt : bytes s.sentList + bytes s.appList < 2 ^ 32 :=
  lt_of_le_of_lt h.bound s.maxBuffer.toNat_lt

theorem add {p : List UInt8} (hp : p.length < 2 ^ 32) : Counted (s.add p) := by
  have hsize : s.size.toNat = bytes s.sentList + bytes s.appList := by
    rw [h.size, UInt32.toNat_ofNat_of_lt' h.bytes_lt]
  have hbound := h.bound
  rw [TcpTxBuffer.add]
  split_ifs with hroom hpos
  · have hroom' : p.length ≤ s.maxBuffer.toNat - (bytes s.sentList + bytes s.appList) := by
      have hle := UInt32.le_iff_toNat_le.mp hroom
      have hsub : s.size ≤ s.maxBuffer := by rwa [UInt32.le_iff_toNat_le, hsize]
      rwa [packetSize, UInt32.toNat_ofNat_of_lt' hp, available, UInt32.toNat_sub_of_le _ _ hsub, hsize] at hle
    have hall := bytes_added s.appList s.nextId p
    refine ⟨h.lostOut, h.sackedOut, h.retrans, h.sentSize, ?_, ?_, h.apart, fun t ht => ?_, nonempty_added h.nonempty hpos _⟩
    · show s.size + packetSize p = UInt32.ofNat (bytes s.sentList + bytes (s.appList ++ _))
      rw [hall, ← Nat.add_assoc, UInt32.ofNat_add, h.size, packetSize]
    · show bytes s.sentList + bytes (s.appList ++ _) ≤ s.maxBuffer.toNat
      rw [hall]
      omega
    · rcases List.mem_append.mp ht with ht | ht
      · exact h.clean t ht
      · rw [List.mem_singleton.mp ht]
        exact ⟨rfl, rfl, rfl⟩
  · exact h
  · exact h

theorem getNewSegment {n : UInt32} (hn : n ≠ 0) (hs : s.getNewSegment n = some (t, s')) : Counted s' ∧ t.Clean := by
  obtain ⟨f, hf, heq⟩ := Option.map_eq_some_iff.mp hs
  obtain ⟨rfl, rfl⟩ := Prod.mk.inj heq
  have hr := getPacketFromList_rearranged (c := 0) hn hf
  obtain ⟨hretrans, hclean⟩ := hr.clean fun t ht => (h.clean t ht).2.1
  have hflags := hr.flags (fun lost sacked => lost = false ∧ sacked = false) fun t ht =>
    ⟨(h.clean t ht).1, (h.clean t ht).2.2⟩
  have hne := hr.nonempty fun t ht => h.nonempty t (List.mem_append_right _ ht)
  have hall : ∀ t ∈ f.list, t.Clean := fun t ht => ⟨(hflags t ht).1, hclean t ht, (hflags t ht).2⟩
  have hitem : f.item ∈ f.list := List.mem_append_right _ List.mem_cons_self
  have hitem' : TcpTxItem.Clean { f.item with startSeq := s.firstByteSeq + s.sentSize } := hall f.item hitem
  have hrest : ∀ t ∈ f.before ++ f.after, t ∈ f.list := fun t ht =>
    (List.mem_append.mp ht).elim (List.mem_append_left _) fun ht => List.mem_append_right _ (List.mem_cons_of_mem _ ht)
  have hbytes : bytes f.before + (f.item.packet.length + bytes f.after) = bytes s.appList := by
    rw [← hr.bytes, Found.list, bytes_append, bytes_cons]
  have hlast : ∀ g : TcpTxItem → Bool, g { f.item with startSeq := s.firstByteSeq + s.sentSize } = false →
      flagged g (s.sentList ++ [{ f.item with startSeq := s.firstByteSeq + s.sentSize }]) = flagged g s.sentList := by
    intro g hg
    rw [flagged_append, flagged_cons_of_ne [] hg, flagged_nil, Nat.add_zero]
  have hsum : bytes (s.sentList ++ [{ f.item with startSeq := s.firstByteSeq + s.sentSize }]) =
      bytes s.sentList + f.item.packet.length := by
    rw [bytes_append, bytes_cons, bytes_nil, Nat.add_zero]
  have htotal : bytes (s.sentList ++ [{ f.item with startSeq := s.firstByteSeq + s.sentSize }]) +
      bytes (f.before ++ f.after) = bytes s.sentList + bytes s.appList := by
    rw [hsum, bytes_append]
    omega
  refine ⟨⟨?_, ?_, ?_, ?_, ?_, ?_, fun t ht => ?_, fun t ht => hall t (hrest t ht), fun t ht => ?_⟩, hitem'⟩
  · exact h.lostOut.trans (congrArg _ (hlast _ hitem'.1).symm)
  · exact h.sackedOut.trans (congrArg _ (hlast _ hitem'.2.2).symm)
  · exact hretrans.trans (h.retrans.trans (congrArg _ (hlast _ hitem'.2.1).symm))
  · show s.sentSize + packetSize f.item.packet = UInt32.ofNat (bytes (s.sentList ++ _))
    rw [hsum, UInt32.ofNat_add, h.sentSize, packetSize]
  · exact h.size.trans (congrArg _ htotal.symm)
  · exact htotal.trans_le h.bound
  · rcases List.mem_append.mp ht with ht | ht
    · exact h.apart t ht
    · rw [List.mem_singleton.mp ht]
      exact fun _ => hitem'.2.2
  · rcases List.mem_append.mp ht with ht | ht
    · rcases List.mem_append.mp ht with ht | ht
      · exact h.nonempty t (List.mem_append_left _ ht)
      · rw [List.mem_singleton.mp ht]
        exact hne f.item hitem
    · exact hne t (hrest t ht)

theorem getTransmittedSegment {n : UInt32} (hn : n ≠ 0) {seq : SequenceNumber32}
    (hs : s.getTransmittedSegment n seq = some (t, s')) : Counted s' := by
  rw [TcpTxBuffer.getTransmittedSegment] at hs
  split_ifs at hs with hassert
  obtain ⟨f, hf, heq⟩ := Option.map_eq_some_iff.mp hs
  obtain ⟨rfl, rfl⟩ := Prod.mk.inj heq
  have hbytes := h.bytes_lt
  have hlimit := limitBytes_ne_zero hn seq (fun t ht => h.nonempty t (List.mem_append_left _ ht)) (by omega)
  have hr := getPacketFromList_rearranged (c := 0) hlimit hf
  have hne := hr.nonempty fun t ht => h.nonempty t (List.mem_append_left _ ht)
  have hsame : ∀ g : TcpTxItem → Bool, g { f.item with retrans := true } = g f.item →
      flagged g (f.before ++ { f.item with retrans := true } :: f.after) = flagged g f.list := by
    intro g hg
    rw [Found.list, flagged_append, flagged_append, flagged_cons, flagged_cons, hg]
  have hmem : ∀ {P : TcpTxItem → Prop}, (P f.item → P { f.item with retrans := true }) → (∀ t ∈ f.list, P t) →
      ∀ t ∈ f.before ++ { f.item with retrans := true } :: f.after, P t := by
    intro P hP hall t ht
    rcases List.mem_append.mp ht with ht | ht
    · exact hall t (List.mem_append_left _ ht)
    · rcases List.mem_cons.mp ht with rfl | ht
      · exact hP (hall f.item (List.mem_append_right _ List.mem_cons_self))
      · exact hall t (List.mem_append_right _ (List.mem_cons_of_mem _ ht))
  have hall : bytes (f.before ++ { f.item with retrans := true } :: f.after) = bytes s.sentList :=
    (hsame _ rfl).trans hr.bytes
  refine ⟨?_, ?_, ?_, ?_, ?_, ?_, ?_, h.clean, fun t ht => ?_⟩
  · exact h.lostOut.trans (congrArg _ ((hsame _ rfl).trans hr.lost).symm)
  · exact h.sackedOut.trans (congrArg _ ((hsame _ rfl).trans hr.sacked).symm)
  · have hretrans := hr.retrans h.retrans
    show (if f.item.retrans then f.retrans else f.retrans + f.item.size) =
      UInt32.ofNat (flagged TcpTxItem.retrans (f.before ++ { f.item with retrans := true } :: f.after))
    rw [hretrans, Nat.add_zero, Found.list, flagged_append, flagged_append, flagged_cons, flagged_cons, if_pos rfl]
    cases f.item.retrans
    · rw [if_neg Bool.false_ne_true, if_neg Bool.false_ne_true, TcpTxItem.size, packetSize, ← UInt32.ofNat_add]
      congr 1
      show _ = _ + (f.item.packet.length + _)
      omega
    · rfl
  · exact h.sentSize.trans (congrArg _ hall.symm)
  · show s.size = UInt32.ofNat (bytes (f.before ++ _ :: f.after) + _)
    rw [hall]
    exact h.size
  · show bytes (f.before ++ _ :: f.after) + _ ≤ _
    rw [hall]
    exact h.bound
  · exact hmem id (hr.flags (fun lost sacked => lost = true → sacked = false) h.apart)
  · rcases List.mem_append.mp ht with ht | ht
    · exact hmem id hne t ht
    · exact h.nonempty t (List.mem_append_right _ ht)

theorem copyLoop {fuel : ℕ} {n : UInt32} {seq : SequenceNumber32} {r : Option TcpTxItem}
    (hs : s.copyLoop fuel n seq = some (r, s')) : Counted s' :=
  copyLoop_keeps h (fun hn => h.getTransmittedSegment hn) (fun hn hr => (h.getNewSegment hn hr).1) hs

/-- **Other flags** for the same packets. -/
theorem reflag (hpackets : s'.sentList.map TcpTxItem.packet = s.sentList.map TcpTxItem.packet) (happ : s'.appList = s.appList)
    (hsentSize : s'.sentSize = s.sentSize) (hsize : s'.size = s.size) (hmax : s'.maxBuffer = s.maxBuffer)
    (hlost : s'.lostOut = UInt32.ofNat (flagged TcpTxItem.lost s'.sentList))
    (hsacked : s'.sackedOut = UInt32.ofNat (flagged TcpTxItem.sacked s'.sentList))
    (hretrans : s'.retrans = UInt32.ofNat (flagged TcpTxItem.retrans s'.sentList))
    (hapart : ∀ t ∈ s'.sentList, t.lost = true → t.sacked = false) : Counted s' := by
  have hbytes : bytes s'.sentList = bytes s.sentList := bytes_congr hpackets
  refine ⟨hlost, hsacked, hretrans, ?_, ?_, ?_, hapart, ?_, fun t ht => ?_⟩
  · rw [hsentSize, h.sentSize, hbytes]
  · rw [hsize, h.size, hbytes, happ]
  · rw [hbytes, happ, hmax]
    exact h.bound
  · rw [happ]
    exact h.clean
  · rcases List.mem_append.mp ht with ht | ht
    · exact nonempty_of_packets hpackets (fun u hu => h.nonempty u (List.mem_append_left _ hu)) t ht
    · exact h.nonempty t (List.mem_append_right _ (happ ▸ ht))

theorem setHead (hl : s.sentList = head :: tail) (head' : TcpTxItem) (hpacket : head'.packet = head.packet)
    (hapart : head'.lost = true → head'.sacked = false) {lostOut sackedOut retrans : UInt32}
    (hlost : lostOut = UInt32.ofNat (flagged TcpTxItem.lost (head' :: tail)))
    (hsacked : sackedOut = UInt32.ofNat (flagged TcpTxItem.sacked (head' :: tail)))
    (hretrans : retrans = UInt32.ofNat (flagged TcpTxItem.retrans (head' :: tail))) :
    Counted { s with sentList := head' :: tail, lostOut := lostOut, sackedOut := sackedOut, retrans := retrans } := by
  refine h.reflag ?_ rfl rfl rfl rfl hlost hsacked hretrans ?_
  · rw [hl, List.map_cons, List.map_cons, hpacket]
  · refine List.forall_mem_cons.mpr ⟨hapart, fun t ht => h.apart t ?_⟩
    rw [hl]
    exact List.mem_cons_of_mem head ht

theorem markHeadAsLost : Counted s.markHeadAsLost := by
  rw [TcpTxBuffer.markHeadAsLost]
  cases hl : s.sentList with
  | nil => exact h
  | cons head tail =>
    have hlostOut := h.lostOut
    have hsackedOut := h.sackedOut
    have hretrans := h.retrans
    rw [hl] at hlostOut hsackedOut hretrans
    have hclear : ∀ f : TcpTxItem → Bool, f { head with sacked := false, retrans := false, lost := true } = false →
        flagged f ({ head with sacked := false, retrans := false, lost := true } :: tail) = flagged f tail := fun f =>
      flagged_cons_of_ne tail
    have hmark : flagged TcpTxItem.lost ({ head with sacked := false, retrans := false, lost := true } :: tail) =
        head.packet.length + flagged TcpTxItem.lost tail := flagged_cons_of_eq tail rfl
    refine h.setHead hl { head with sacked := false, retrans := false, lost := true } rfl (fun _ => rfl) ?_ ?_ ?_
    · rw [hmark, hlostOut]
      cases hlost : head.lost
      · rw [if_neg Bool.false_ne_true, flagged_cons_of_ne tail hlost, Nat.add_comm, UInt32.ofNat_add, TcpTxItem.size,
          packetSize]
      · rw [if_pos rfl, flagged_cons_of_eq tail hlost]
    · rw [hclear _ rfl, hsackedOut, counter_sub]
    · rw [hclear _ rfl, hretrans, counter_sub]

theorem deleteRetransmittedFlagFromHead : Counted s.deleteRetransmittedFlagFromHead := by
  rw [TcpTxBuffer.deleteRetransmittedFlagFromHead]
  split_ifs
  · exact h
  · cases hl : s.sentList with
    | nil => exact h
    | cons head tail =>
      have hlostOut := h.lostOut
      have hsackedOut := h.sackedOut
      have hretrans := h.retrans
      rw [hl] at hlostOut hsackedOut hretrans
      dsimp only
      split_ifs with hflag
      · have hclear : flagged TcpTxItem.retrans ({ head with retrans := false } :: tail) = flagged TcpTxItem.retrans tail :=
          flagged_cons_of_ne tail rfl
        have hsub := counter_sub TcpTxItem.retrans head tail
        rw [if_pos hflag] at hsub
        refine h.setHead hl { head with retrans := false } rfl (h.apart head (hl ▸ List.mem_cons_self)) hlostOut
          hsackedOut ?_
        rw [hclear, hretrans, hsub]
      · exact h

theorem resetRenoSack : Counted s.resetRenoSack := by
  have hsame : ∀ f : TcpTxItem → Bool, (∀ t : TcpTxItem, f { t with sacked := false } = f t) →
      flagged f (s.sentList.map fun t => { t with sacked := false }) = flagged f s.sentList := by
    intro f hf
    rw [flagged, flagged, List.map_map]
    congr 2
    funext t
    show (if f { t with sacked := false } then t.packet.length else 0) = _
    rw [hf]
  refine h.reflag ?_ rfl rfl rfl rfl (h.lostOut.trans (congrArg _ (hsame _ fun _ => rfl).symm)) ?_
    (h.retrans.trans (congrArg _ (hsame _ fun _ => rfl).symm)) fun t ht => ?_
  · rw [TcpTxBuffer.resetRenoSack, List.map_map]
    rfl
  · show 0 = UInt32.ofNat (flagged TcpTxItem.sacked (s.sentList.map fun t => { t with sacked := false }))
    rw [flagged_eq_zero fun t ht => ?_]
    · rfl
    · obtain ⟨u, -, rfl⟩ := List.mem_map.mp ht
      rfl
  · obtain ⟨u, -, rfl⟩ := List.mem_map.mp ht
    exact fun _ => rfl

theorem resetSentList : Counted s.resetSentList := by
  have hbytes : bytes [] + bytes s.resetSentList.appList = bytes s.sentList + bytes s.appList := by
    rw [bytes_nil, Nat.zero_add, bytes_congr (packets_resetSentList s), bytes_append]
  refine ⟨rfl, rfl, rfl, rfl, h.size.trans (congrArg _ hbytes.symm), hbytes.trans_le h.bound,
    List.forall_mem_nil _, fun t ht => ?_, nonempty_resetSentList h.nonempty⟩
  rcases List.mem_append.mp ht with ht | ht
  · obtain ⟨u, -, rfl⟩ := List.mem_map.mp ht
    exact ⟨rfl, rfl, rfl⟩
  · exact h.clean t ht

theorem resetLastSegmentSent (hlast : s.sentList.getLast?.all fun t => ! t.lost && ! t.retrans && ! t.sacked) :
    Counted s.resetLastSegmentSent := by
  rw [TcpTxBuffer.resetLastSegmentSent]
  cases hitem : s.sentList.getLast? with
  | none => exact h
  | some item =>
    rw [hitem, Option.all_some] at hlast
    have hclean : item.Clean := by simpa [TcpTxItem.Clean, and_assoc] using hlast
    have hl : s.sentList = s.sentList.dropLast ++ [item] := (List.dropLast_append_getLast? item hitem).symm
    have hflagged : ∀ f : TcpTxItem → Bool, f item = false → flagged f s.sentList.dropLast = flagged f s.sentList := by
      intro f hf
      conv_rhs => rw [hl]
      rw [flagged_append, flagged_cons_of_ne [] hf, flagged_nil, Nat.add_zero]
    have hbytes := bytes_dropLast hitem
    have hall := giveBack_eq hitem s.appList
    have htotal := bytes_giveBack hitem s.appList
    refine ⟨?_, ?_, ?_, ?_, ?_, ?_, fun t ht => h.apart t (List.mem_of_mem_dropLast ht), ?_, fun t ht => h.nonempty t (hall ▸ ht)⟩
    · exact h.lostOut.trans (congrArg _ (hflagged _ hclean.1).symm)
    · exact h.sackedOut.trans (congrArg _ (hflagged _ hclean.2.2).symm)
    · dsimp only
      rw [hclean.2.1, if_neg Bool.false_ne_true]
      exact h.retrans.trans (congrArg _ (hflagged _ hclean.2.1).symm)
    · show s.sentSize - packetSize item.packet = _
      rw [h.sentSize, hbytes, UInt32.ofNat_add, packetSize, UInt32.add_sub_cancel]
    · exact h.size.trans (congrArg _ htotal.symm)
    · exact htotal.trans_le h.bound
    · exact List.forall_mem_cons.mpr ⟨hclean, h.clean⟩

theorem reflagged (hr : Reflagged s.sentList s.lostOut s.sackedOut s'.sentList s'.lostOut s'.sackedOut)
    (happ : s'.appList = s.appList) (hsentSize : s'.sentSize = s.sentSize) (hsize : s'.size = s.size)
    (hmax : s'.maxBuffer = s.maxBuffer) (hretrans : s'.retrans = s.retrans) : Counted s' := by
  refine h.reflag (map_packet_of_frame hr.frames) happ hsentSize hsize hmax (hr.lost 0 h.lostOut) (hr.sacked 0 h.sackedOut) ?_ (hr.apart h.apart)
  rw [hretrans, h.retrans, hr.retrans]

theorem addRenoSack (hlost : (s.sentList.tail.find? fun t => ! t.sacked).all fun t => ! t.lost) (hs : s.addRenoSack = some s') :
    Counted s' := by
  rw [TcpTxBuffer.addRenoSack] at hs
  cases hl : s.sentList with
  | nil =>
    rw [hl] at hs
    cases hs
  | cons head tail =>
    rw [hl] at hs hlost
    dsimp only at hs
    split_ifs at hs
    cases hscan : TcpTxBuffer.renoScan tail with
    | none =>
      rw [hscan] at hs
      obtain rfl := Option.some.inj hs
      refine h.reflagged ?_ rfl rfl rfl rfl rfl
      rw [hl]
      exact Reflagged.refl _ _ _
    | some r =>
      rw [hscan] at hs
      obtain rfl := Option.some.inj hs
      refine h.reflagged ?_ rfl rfl rfl rfl rfl
      rw [hl]
      exact (Reflagged.renoScan hscan _ _ hlost).cons head

theorem setSentListLost {resetSack : Bool} (hs : s.setSentListLost resetSack = some s') : Counted s' := by
  rw [TcpTxBuffer.setSentListLost] at hs
  cases resetSack
  · obtain ⟨hlist, hsum⟩ := setLost_false 0 s.sentList
    simp only [Bool.false_eq_true, if_false] at hs
    split_ifs at hs
    obtain rfl := Option.some.inj hs
    refine h.reflag ?_ rfl rfl rfl rfl ?_ ?_ ?_ fun t ht => ?_
    · dsimp only
      rw [hlist, List.map_map]
      rfl
    · exact hsum.trans (UInt32.zero_add _)
    · refine h.sackedOut.trans (congrArg _ ?_)
      dsimp only
      rw [hlist, flagged, flagged, List.map_map]
      rfl
    · dsimp only
      rw [flagged_eq_zero fun t ht => ?_]
      · rfl
      · rw [hlist] at ht
        obtain ⟨u, -, rfl⟩ := List.mem_map.mp ht
        rfl
    · dsimp only at ht
      rw [hlist] at ht
      obtain ⟨u, hu, rfl⟩ := List.mem_map.mp ht
      have hflags : ∀ lost sacked : Bool, (lost = true → sacked = false) → (lost || ! sacked) = true → sacked = false := by
        decide
      exact hflags u.lost u.sacked (h.apart u hu)
  · have hlist := setLost_true s.sentSize s.sentList
    simp only [if_true, hlist] at hs
    split_ifs at hs
    obtain rfl := Option.some.inj hs
    have hpackets : (s.sentList.map fun t => { t with sacked := false, lost := true, retrans := false }).map
        TcpTxItem.packet = s.sentList.map TcpTxItem.packet := by
      rw [List.map_map]
      rfl
    have hall : flagged TcpTxItem.lost (s.sentList.map fun t => { t with sacked := false, lost := true, retrans := false }) =
        bytes s.sentList := by
      rw [← bytes_congr hpackets, bytes, flagged, flagged, List.map_map, List.map_map]
      rfl
    have hnone : ∀ f : TcpTxItem → Bool, (∀ t : TcpTxItem, f { t with sacked := false, lost := true, retrans := false } = false) →
        flagged f (s.sentList.map fun t => { t with sacked := false, lost := true, retrans := false }) = 0 := by
      intro f hf
      refine flagged_eq_zero fun t ht => ?_
      obtain ⟨u, -, rfl⟩ := List.mem_map.mp ht
      exact hf u
    refine h.reflag hpackets rfl rfl rfl rfl ?_ ?_ ?_ fun t ht => ?_
    · exact h.sentSize.trans (congrArg _ hall.symm)
    · exact (congrArg UInt32.ofNat (hnone _ fun _ => rfl)).symm
    · exact (congrArg UInt32.ofNat (hnone _ fun _ => rfl)).symm
    · obtain ⟨u, -, rfl⟩ := List.mem_map.mp ht
      exact fun _ => rfl

theorem removeFromCounts {item : TcpTxItem} {size : UInt32} {l : List TcpTxItem} {first : SequenceNumber32}
    (hsum : ∀ f ∈ [TcpTxItem.lost, TcpTxItem.sacked, TcpTxItem.retrans, fun _ => true],
      flagged f s.sentList = (if f item then size.toNat else 0) + flagged f l)
    (hapart : ∀ t ∈ l, t.lost = true → t.sacked = false) (hne : ∀ t ∈ l, t.packet ≠ [])
    (hs : { s with
            size := s.size - size
            sentSize := s.sentSize - size
            firstByteSeq := first
            sentList := l }.removeFromCounts item size = some s') :
    Counted s' ∧ s'.sentList = l := by
  simp only [List.forall_mem_cons] at hsum
  obtain ⟨hlost, hsacked, hretrans, hbytes, -⟩ := hsum
  have hsub : ∀ m : ℕ, UInt32.ofNat (size.toNat + m) - size = UInt32.ofNat m := by
    intro m
    rw [Nat.add_comm, UInt32.ofNat_add, UInt32.ofNat_toNat, UInt32.add_sub_cancel]
  have hcounter : ∀ (x : Bool) (m : ℕ), (if x then UInt32.ofNat ((if x then size.toNat else 0) + m) - size
      else UInt32.ofNat ((if x then size.toNat else 0) + m)) = UInt32.ofNat m := by
    intro x m
    cases x
    · rw [if_neg Bool.false_ne_true, if_neg Bool.false_ne_true, Nat.zero_add]
    · rw [if_pos rfl, if_pos rfl, hsub]
  have hbytes' : bytes s.sentList = size.toNat + bytes l := hbytes
  have hbound := h.bound
  rw [TcpTxBuffer.removeFromCounts, Option.ite_none_left_eq_some] at hs
  obtain rfl := Option.some.inj hs.2
  refine ⟨⟨?_, ?_, ?_, ?_, ?_, ?_, hapart, h.clean, fun t ht => ?_⟩, rfl⟩
  · dsimp only
    rw [h.lostOut, hlost, hcounter]
  · dsimp only
    rw [h.sackedOut, hsacked, hcounter]
  · dsimp only
    rw [h.retrans, hretrans, hcounter]
  · dsimp only
    rw [h.sentSize, hbytes', hsub]
  · dsimp only
    rw [h.size, hbytes', Nat.add_assoc, hsub]
  · show bytes l + bytes s.appList ≤ s.maxBuffer.toNat
    omega
  · rcases List.mem_append.mp ht with ht | ht
    · exact hne t ht
    · exact h.nonempty t (List.mem_append_right _ ht)

theorem copyLoop_of_empty (hl : s.sentList = []) {fuel : ℕ} {n : UInt32} {seq : SequenceNumber32} {r : Option TcpTxItem}
    (hs : s.copyLoop fuel n seq = some (r, s')) : ∀ t ∈ s'.sentList, t.sacked = false := by
  refine copyLoop_keeps (P := fun s' => ∀ t ∈ s'.sentList, t.sacked = false) ?_ (fun _ hr => ?_) (fun hn hr => ?_) hs
  · rw [hl]
    exact fun t ht => absurd ht List.not_mem_nil
  · rw [TcpTxBuffer.getTransmittedSegment, hl] at hr
    simp at hr
  · have hclean := (h.getNewSegment hn hr).2
    obtain ⟨f, -, heq⟩ := Option.map_eq_some_iff.mp hr
    obtain ⟨rfl, rfl⟩ := Prod.mk.inj heq
    dsimp only
    rw [hl, List.nil_append]
    exact List.forall_mem_singleton.mpr hclean.2.2

theorem discardLoop {fuel : ℕ} {offset : UInt32} (hs : TcpTxBuffer.discardLoop fuel s offset = some s') :
    Counted s' ∧ (movable (behind offset.toNat s.sentList) = true → movable s'.sentList = true) := by
  induction fuel generalizing s offset with
  | zero => cases hs
  | succ fuel ih =>
    have hbytes := h.bytes_lt
    rw [TcpTxBuffer.discardLoop] at hs
    by_cases hend : (s.size == 0 || offset == 0) = true
    · rw [if_pos hend] at hs
      obtain rfl := Option.some.inj hs
      refine ⟨h, fun hmove => ?_⟩
      cases hl : s.sentList with
      | nil => rfl
      | cons t rest =>
        have hpos : 0 < t.packet.length :=
          List.length_pos_iff.mpr (h.nonempty t (List.mem_append_left _ (hl ▸ List.mem_cons_self)))
        rw [hl, bytes_cons] at hbytes
        rcases Bool.or_eq_true_iff.mp hend with hzero | hzero
        · have hsize := h.size
          rw [beq_iff_eq.mp hzero, hl, bytes_cons] at hsize
          have hnat := congrArg UInt32.toNat hsize
          rw [UInt32.toNat_ofNat_of_lt' hbytes] at hnat
          exact absurd hnat (by show ¬ 0 = _; omega)
        · rwa [beq_iff_eq.mp hzero, hl, behind, if_neg (by show ¬ _ ≤ 0; omega)] at hmove
    · rw [if_neg hend] at hs
      obtain ⟨s1, hs1, hs⟩ := Option.bind_eq_some_iff.mp hs
      obtain ⟨h1, hmove1⟩ : Counted s1 ∧ (movable (behind offset.toNat s.sentList) = true →
          movable (behind offset.toNat s1.sentList) = true) := by
        cases hl : s.sentList with
        | nil =>
          rw [hl] at hs1
          obtain ⟨⟨t, s2⟩, hcopy, hs1⟩ := Option.bind_eq_some_iff.mp hs1
          obtain ⟨-, -, rfl⟩ := Option.map_eq_some_iff.mp hs1
          exact ⟨h.copyLoop hcopy, fun _ => movable_behind (h.copyLoop_of_empty hl hcopy) _⟩
        | cons item rest =>
          rw [hl] at hs1
          obtain rfl := Option.some.inj hs1
          exact ⟨h, fun hmove => by rwa [hl]⟩
      have hbytes1 := h1.bytes_lt
      cases hl : s1.sentList with
      | nil =>
        rw [hl] at hs
        cases hs
      | cons item rest =>
        have hapart := h1.apart
        have hne := fun t ht => h1.nonempty t (List.mem_append_left _ ht)
        rw [hl] at hs hmove1 hapart hne hbytes1
        rw [bytes_cons] at hbytes1
        have hsize : item.size.toNat = item.packet.length :=
          UInt32.toNat_ofNat_of_lt' (show item.packet.length < 2 ^ 32 by omega)
        dsimp only at hs
        split_ifs at hs with hstart hall
        · obtain ⟨s2, hs2, hs⟩ := Option.bind_eq_some_iff.mp hs
          obtain ⟨h2, hrest⟩ := h1.removeFromCounts (fun f _ => by rw [hl, flagged_cons, hsize])
            (fun t ht => hapart t (List.mem_cons_of_mem item ht)) (fun t ht => hne t (List.mem_cons_of_mem item ht)) hs2
          obtain ⟨h3, hmove3⟩ := ih h2 hs
          refine ⟨h3, fun hmove => hmove3 ?_⟩
          have hle : item.packet.length ≤ offset.toNat := hsize ▸ UInt32.le_iff_toNat_le.mp hall
          have hmove' := hmove1 hmove
          rw [behind, if_pos hle] at hmove'
          rwa [hrest, UInt32.toNat_sub_of_le _ _ hall, hsize]
        · have hlt : offset.toNat < item.packet.length := by
            have hnot := mt UInt32.le_iff_toNat_le.mpr hall
            omega
          have hpart : ∀ x : Bool, (if x then item.packet.length else 0) = (if x then offset.toNat else 0) +
              if x then (item.packet.drop offset.toNat).length else 0 := by
            intro x
            rw [List.length_drop]
            split_ifs <;> omega
          have hsum : ∀ f ∈ [TcpTxItem.lost, TcpTxItem.sacked, TcpTxItem.retrans, fun _ => true], flagged f s1.sentList =
              (if f item then offset.toNat else 0) + flagged f ({ item with
                packet := item.packet.drop offset.toNat, startSeq := item.startSeq + offset } :: rest) := by
            simp only [hl, List.forall_mem_cons, flagged_cons, ← Nat.add_assoc]
            exact ⟨congrArg (· + _) (hpart _), congrArg (· + _) (hpart _), congrArg (· + _) (hpart _),
              congrArg (· + _) (hpart true), fun f hf => absurd hf List.not_mem_nil⟩
          have hne' : item.packet.drop offset.toNat ≠ [] := by
            rw [← List.length_pos_iff, List.length_drop]
            exact Nat.sub_pos_of_lt hlt
          obtain ⟨h2, hrest⟩ := h1.removeFromCounts hsum
            (List.forall_mem_cons.mpr ⟨hapart item List.mem_cons_self, fun t ht => hapart t (List.mem_cons_of_mem item ht)⟩)
            (List.forall_mem_cons.mpr ⟨hne', fun t ht => hne t (List.mem_cons_of_mem item ht)⟩) hs
          refine ⟨h2, fun hmove => ?_⟩
          have hmove' := hmove1 hmove
          rw [behind, if_neg (by omega)] at hmove'
          rw [hrest]
          exact hmove'

theorem moveSackFromHead (hmove : movable s.sentList = true) (hs : s.moveSackFromHead = some s') : Counted s' := by
  rw [TcpTxBuffer.moveSackFromHead] at hs
  cases hl : s.sentList with
  | nil =>
    rw [hl] at hs
    obtain rfl := Option.some.inj hs
    exact h
  | cons head tail =>
    have hsackedOut := h.sackedOut
    have hlostOut := h.lostOut
    have hretrans := h.retrans
    rw [hl] at hs hmove hsackedOut hlostOut hretrans
    dsimp only at hs
    split_ifs at hs with hsacked hlost
    · have hclear : flagged TcpTxItem.sacked ({ head with sacked := false } :: tail) = flagged TcpTxItem.sacked tail :=
        flagged_cons_of_ne tail rfl
      have hsub := counter_sub TcpTxItem.sacked head tail
      rw [if_pos hsacked] at hsub
      have hsackedOut' : s.sackedOut - head.size = UInt32.ofNat (flagged TcpTxItem.sacked ({ head with sacked := false } :: tail)) := by
        rw [hclear, hsackedOut, hsub]
      have hhead := h.setHead hl { head with sacked := false } rfl (fun _ => rfl) hlostOut hsackedOut' hretrans
      obtain ⟨s1, hs1, rfl⟩ := Option.map_eq_some_iff.mp hs
      refine (hhead.addRenoSack ?_ hs1).markHeadAsLost
      rwa [movable, hsacked, Bool.not_true, Bool.false_or] at hmove
    · obtain rfl := Option.some.inj hs
      exact h

/-- The flag of a sacked head must not go to a lost segment. -/
theorem discardUpTo {seq : SequenceNumber32}
    (hmove : ge s.firstByteSeq seq = true ∨ movable (behind (sub seq s.firstByteSeq).toUInt32.toNat s.sentList) = true)
    (hs : s.discardUpTo seq = some s') : Counted s' := by
  rw [TcpTxBuffer.discardUpTo] at hs
  split_ifs at hs with hold
  · obtain rfl := Option.some.inj hs
    exact h
  · obtain ⟨s1, hs1, hs⟩ := Option.bind_eq_some_iff.mp hs
    obtain ⟨h1, hmove1⟩ := h.discardLoop hs1
    obtain ⟨s2, hs2, hs⟩ := Option.bind_eq_some_iff.mp hs
    have h1' : Counted (if s1.size == 0 then { s1 with firstByteSeq := seq } else s1) := by
      split_ifs
      · exact ⟨h1.lostOut, h1.sackedOut, h1.retrans, h1.sentSize, h1.size, h1.bound, h1.apart, h1.clean, h1.nonempty⟩
      · exact h1
    have hlist : (if s1.size == 0 then { s1 with firstByteSeq := seq } else s1).sentList = s1.sentList := by
      split_ifs <;> rfl
    have h2 := h1'.moveSackFromHead (by rw [hlist]; exact hmove1 (hmove.resolve_left hold)) hs2
    rw [Option.ite_none_right_eq_some] at hs
    obtain ⟨-, hs⟩ := hs
    rw [Option.ite_none_right_eq_some] at hs
    obtain rfl := Option.some.inj hs.2
    split_ifs
    · exact ⟨h2.lostOut, h2.sackedOut, h2.retrans, h2.sentSize, h2.size, h2.bound, h2.apart, h2.clean, h2.nonempty⟩
    · exact h2

theorem updateLostCount (hs : s.updateLostCount = some s') (hhead : s'.sentList.head?.all fun t => ! t.sacked) : Counted s' := by
  obtain ⟨id, -, hs⟩ := Option.bind_eq_some_iff.mp hs
  obtain ⟨⟨below, after⟩, hsplit, hs⟩ := Option.bind_eq_some_iff.mp hs
  have hl := splitAfter_append hsplit
  cases below with
  | nil => cases hs
  | cons head tail =>
    obtain rfl := Option.some.inj hs
    refine h.reflagged ?_ rfl rfl rfl rfl rfl
    rw [← hl, List.cons_append]
    have hscan := ((Reflagged.lostScan s.dupAckThresh s.lostOut s.sackedOut tail).append [head] after)
    refine hscan.trans ?_
    dsimp only at hhead ⊢
    split_ifs at hhead ⊢ with hmark
    · rw [Bool.and_eq_true_iff, Bool.not_eq_true'] at hmark
      rw [List.head?_cons, Option.all_some, Bool.not_eq_true'] at hhead
      exact Reflagged.lose hmark.2 hhead _ _ _
    · exact Reflagged.refl _ _ _

theorem update {list : List SackBlock} {n : UInt32} (hs : s.update list = some (n, s')) : Counted s' := by
  obtain ⟨⟨l, board, done⟩, hblocks, hs⟩ := Option.bind_eq_some_iff.mp hs
  have h1 : Counted { s with
      sentList := l
      lostOut := board.lostOut
      sackedOut := board.sackedOut
      highestSack := board.highestSack } := h.reflagged (Reflagged.updateBlocks hblocks) rfl rfl rfl rfl rfl
  dsimp only at hs
  rcases Bool.eq_false_or_eq_true done with rfl | rfl
  · obtain ⟨-, rfl⟩ := Prod.mk.inj (Option.some.inj hs)
    exact h1
  · rw [if_neg Bool.false_ne_true] at hs
    obtain ⟨s2, hs2, hs⟩ := Option.bind_eq_some_iff.mp hs
    cases hl : s2.sentList with
    | nil =>
      rw [hl] at hs
      cases hs
    | cons head tail =>
      rw [hl] at hs
      dsimp only at hs
      rw [Option.ite_none_right_eq_some] at hs
      obtain ⟨hassert, hs⟩ := hs
      obtain ⟨-, rfl⟩ := Prod.mk.inj (Option.some.inj hs)
      split_ifs at hs2
      · refine h1.updateLostCount hs2 ?_
        rw [hl]
        exact (Bool.and_eq_true_iff.mp hassert).1
      · obtain rfl := Option.some.inj hs2
        exact h1

/-- **Bytes in flight** can be computed, without an underflow. -/
theorem bytesInFlight : flagged TcpTxItem.sacked s.sentList + flagged TcpTxItem.lost s.sentList ≤
      bytes s.sentList ∧
    s.bytesInFlight = some (UInt32.ofNat (bytes s.sentList -
      (flagged TcpTxItem.sacked s.sentList + flagged TcpTxItem.lost s.sentList) + flagged TcpTxItem.retrans s.sentList)) := by
  have hle := flagged_add_le h.apart
  have hlt := h.bytes_lt
  have hsum : s.sackedOut + s.lostOut =
      UInt32.ofNat (flagged TcpTxItem.sacked s.sentList + flagged TcpTxItem.lost s.sentList) := by
    rw [h.sackedOut, h.lostOut, UInt32.ofNat_add]
  have hle' : UInt32.ofNat (flagged TcpTxItem.sacked s.sentList + flagged TcpTxItem.lost s.sentList) ≤
      UInt32.ofNat (bytes s.sentList) := (ofNat_le_ofNat (by omega) (by omega)).mpr (by omega)
  refine ⟨by omega, ?_⟩
  rw [TcpTxBuffer.bytesInFlight, hsum, h.sentSize, if_pos hle', ofNat_sub_ofNat (by omega), h.retrans, UInt32.ofNat_add]

end Counted

/-! ## Runs -/

/-- The calls that change the buffer. The size of a packet has 32 bits. -/
inductive TxCall where
  | add (p : { p : List UInt8 // p.length < 2 ^ 32 })
  | copyFromSequence (numBytes : UInt32) (seq : SequenceNumber32)
  | discardUpTo (seq : SequenceNumber32)
  | update (list : List SackBlock)
  | resetRenoSack
  | resetSentList
  | resetLastSegmentSent
  | setSentListLost (resetSack : Bool)
  | deleteRetransmittedFlagFromHead
  | markHeadAsLost
  | addRenoSack

def call (s : TcpTxBuffer) : TxCall → Option TcpTxBuffer
  | .add p => some (s.add p)
  | .copyFromSequence numBytes seq => (s.copyFromSequence numBytes seq).map Prod.snd
  | .discardUpTo seq => s.discardUpTo seq
  | .update list => (s.update list).map Prod.snd
  | .resetRenoSack => some s.resetRenoSack
  | .resetSentList => some s.resetSentList
  | .resetLastSegmentSent => some s.resetLastSegmentSent
  | .setSentListLost resetSack => s.setSentListLost resetSack
  | .deleteRetransmittedFlagFromHead => some s.deleteRetransmittedFlagFromHead
  | .markHeadAsLost => some s.markHeadAsLost
  | .addRenoSack => s.addRenoSack

def runFrom (s : TcpTxBuffer) : List TxCall → Option TcpTxBuffer
  | [] => some s
  | c :: rest => (s.call c).bind fun s => s.runFrom rest

/-- The calls that keep the counters right: the last segment goes back without flags, and no lost segment becomes
sacked in place of another one. -/
def TxCall.keeps (s : TcpTxBuffer) : TxCall → Bool
  | .resetLastSegmentSent => s.sentList.getLast?.all fun t => ! t.lost && ! t.retrans && ! t.sacked
  | .addRenoSack => (s.sentList.tail.find? fun t => ! t.sacked).all fun t => ! t.lost
  | .discardUpTo seq => ge s.firstByteSeq seq || movable (behind (sub seq s.firstByteSeq).toUInt32.toNat s.sentList)
  | _ => true

/-- Every call of the run meets the condition, in the state that it is made in. -/
def TxCall.keepsFrom (s : TcpTxBuffer) : List TxCall → Bool
  | [] => true
  | c :: rest => c.keeps s && (s.call c).all fun s => keepsFrom s rest

def start (isn : SequenceNumber32) (maxBuffer dupAckThresh : UInt32) (sackEnabled : Bool) : TcpTxBuffer :=
  { firstByteSeq := isn, maxBuffer := maxBuffer, dupAckThresh := dupAckThresh, sackEnabled := sackEnabled }

namespace Counted

variable {s s' : TcpTxBuffer} {c : TxCall}

theorem start (isn : SequenceNumber32) (maxBuffer dupAckThresh : UInt32) (sackEnabled : Bool) :
    Counted (TcpTxBuffer.start isn maxBuffer dupAckThresh sackEnabled) :=
  ⟨rfl, rfl, rfl, rfl, rfl, Nat.zero_le _, fun _ ht => absurd ht List.not_mem_nil, fun _ ht => absurd ht List.not_mem_nil,
    fun _ ht => absurd ht List.not_mem_nil⟩

/-- **One call** keeps the counters right. -/
theorem call (h : Counted s) (hc : c.keeps s = true) (hs : s.call c = some s') : Counted s' := by
  cases c with
  | add p =>
    obtain rfl := Option.some.inj hs
    exact h.add p.2
  | copyFromSequence numBytes seq =>
    obtain ⟨⟨r, s1⟩, hcopy, rfl⟩ := Option.map_eq_some_iff.mp hs
    exact h.copyLoop hcopy
  | discardUpTo seq => exact h.discardUpTo (Bool.or_eq_true_iff.mp hc) hs
  | update list =>
    obtain ⟨⟨r, s1⟩, hupdate, rfl⟩ := Option.map_eq_some_iff.mp hs
    exact h.update hupdate
  | resetRenoSack =>
    obtain rfl := Option.some.inj hs
    exact h.resetRenoSack
  | resetSentList =>
    obtain rfl := Option.some.inj hs
    exact h.resetSentList
  | resetLastSegmentSent =>
    obtain rfl := Option.some.inj hs
    exact h.resetLastSegmentSent hc
  | setSentListLost resetSack => exact h.setSentListLost hs
  | deleteRetransmittedFlagFromHead =>
    obtain rfl := Option.some.inj hs
    exact h.deleteRetransmittedFlagFromHead
  | markHeadAsLost =>
    obtain rfl := Option.some.inj hs
    exact h.markHeadAsLost
  | addRenoSack => exact h.addRenoSack hc hs

theorem runFrom (h : Counted s) {calls : List TxCall} (hcalls : TxCall.keepsFrom s calls = true)
    (hs : s.runFrom calls = some s') : Counted s' := by
  induction calls generalizing s with
  | nil =>
    obtain rfl := Option.some.inj hs
    exact h
  | cons c rest ih =>
    obtain ⟨s1, hs1, hs⟩ := Option.bind_eq_some_iff.mp hs
    rw [TxCall.keepsFrom, Bool.and_eq_true, hs1, Option.all_some] at hcalls
    exact ih (h.call hcalls.1 hs1) hcalls.2 hs

end Counted

/-- **The counters are right** in every run whose calls meet the condition, and bytes in flight can be computed. -/
theorem run_counted (isn : SequenceNumber32) (maxBuffer dupAckThresh : UInt32) (sackEnabled : Bool) (calls : List TxCall)
    (s : TcpTxBuffer) (hcalls : TxCall.keepsFrom (start isn maxBuffer dupAckThresh sackEnabled) calls = true)
    (hs : (start isn maxBuffer dupAckThresh sackEnabled).runFrom calls = some s) :
    Counted s ∧ s.bytesInFlight = some (UInt32.ofNat (bytes s.sentList -
      (flagged TcpTxItem.sacked s.sentList + flagged TcpTxItem.lost s.sentList) + flagged TcpTxItem.retrans s.sentList)) :=
  have h := (Counted.start isn maxBuffer dupAckThresh sackEnabled).runFrom hcalls hs
  ⟨h, h.bytesInFlight.2⟩

/-- A sacked segment between two others, with sequence numbers that wrap, and an acknowledgement of the first one. -/
theorem run_counted_wrap : ∃ s, (start 0xfffffffe 32768 1 true).runFrom [.add ⟨[1, 2, 3, 4, 5, 6], by decide⟩,
      .copyFromSequence 2 0xfffffffe, .copyFromSequence 2 0, .copyFromSequence 2 2, .update [(0, 2)], .discardUpTo 0xffffffff] =
        some s ∧ Counted s ∧ s.bytesInFlight = some (UInt32.ofNat (bytes s.sentList -
      (flagged TcpTxItem.sacked s.sentList + flagged TcpTxItem.lost s.sentList) + flagged TcpTxItem.retrans s.sentList)) := by
  have hsome : ((start 0xfffffffe 32768 1 true).runFrom [.add ⟨[1, 2, 3, 4, 5, 6], by decide⟩,
      .copyFromSequence 2 0xfffffffe, .copyFromSequence 2 0, .copyFromSequence 2 2, .update [(0, 2)],
      .discardUpTo 0xffffffff]).isSome = true := by decide
  obtain ⟨s, hs⟩ := Option.isSome_iff_exists.mp hsome
  exact ⟨s, hs, run_counted 0xfffffffe 32768 1 true _ s (by decide) hs⟩

/-- A lost segment goes back to the data that was not sent, and bytes in flight cannot be computed. A lost segment becomes
sacked in place of the head. -/
theorem not_run_counted :
    ((start 0 32768 3 false).runFrom [.add ⟨[1, 2], by decide⟩, .copyFromSequence 2 0, .markHeadAsLost,
      .resetLastSegmentSent]).map bytesInFlight = some none ∧
    ((start 0 32768 3 false).runFrom [.add ⟨[1, 2], by decide⟩, .add ⟨[3, 4], by decide⟩, .copyFromSequence 2 0,
      .copyFromSequence 2 2, .setSentListLost false, .addRenoSack]).map (fun s => s.sentList.all fun t => ! (t.lost && t.sacked)) =
        some false := by
  constructor
  · decide
  · decide

end TcpTxBuffer

end Ns3Ndn.Internet
