import Ns3Ndn.Internet.TcpRxStream

/-!
# Where the receive buffer keeps its bytes

The receive buffer by the positions of its pieces, whatever the bytes are: segments that overlap may differ in them. The
bytes from the first one that was not extracted to the one that is missing are there, and no piece is beyond a limit.

* `Placed`: where the pieces are; `Fits`: a segment that compares by positions;
* **`Placed.add_none`**, **`Placed.add_some`**: a segment of which nothing, or something, is new;
* **`Placed.extract`**: bytes are taken from the beginning.
-/

namespace Ns3Ndn.Internet

open Network SequenceNumber32 SliceLib PieceLib

/-- A block of bytes that are kept beyond the one that is missing. -/
def Listed (l : List (List UInt8 × ℕ)) (n a b : ℕ) : Prop := n < a ∧ a < b ∧ ∀ i, a ≤ i → i < b → Held l i

/-- **Where the pieces are**: all before `r` was extracted, what is there from `r` on goes to before `n`, and nothing is
beyond the window by more than `slack`. -/
structure Placed (isn : SequenceNumber32) (maxBuffer : UInt32) (slack : ℕ) (s : TcpRxBuffer) (l : List (List UInt8 × ℕ))
    (r n : ℕ) : Prop where
  data : s.data = encode isn l
  apart : Apart l
  size : s.size = UInt32.ofNat (total l)
  next : s.nextRxSeq = seqAt isn n
  avail : s.availBytes = UInt32.ofNat (n - r)
  read_le : r ≤ n
  ready : ∀ i, r ≤ i → i < n → Held l i
  missing : ¬ Held l n
  window : ∀ p ∈ l, r ≤ p.2 ∧ stop p ≤ r + maxBuffer.toNat + slack
  sacks : ∀ x ∈ s.sackList, BlockOf isn (Listed l n) x
  max : s.maxBuffer = maxBuffer
  noFin : s.gotFin = false

/-- A segment from `f` to before `e` that compares by positions. It ends near the window when it is not trimmed. -/
structure Fits (maxBuffer : UInt32) (slack r n f e : ℕ) : Prop where
  le : f ≤ e
  before : n < f + 2 ^ 31
  after : f < n + 2 ^ 31
  late : n ≤ e + slack
  early : e < r + maxBuffer.toNat + 2 ^ 31
  inside : r = n → e ≤ n + maxBuffer.toNat + slack

/-- The pieces with what is left of a segment. -/
def stored (bytes : List UInt8) (f : ℕ) (t : ℕ × ℕ × List (List UInt8 × ℕ)) : List (List UInt8 × ℕ) :=
  insertPiece (slice bytes (t.1 - f) (t.2.1 - f), t.1) t.2.2

/-! ## Positions -/

theorem mergeable_listed {l : List (List UInt8 × ℕ)} {n k : ℕ} (hl : ∀ p ∈ l, stop p ≤ k) (hk : k < n + 2 ^ 31) :
    Mergeable n (Listed l n) := by
  refine ⟨fun {a b} hab => ?_, fun {a b c} hab hbc => ⟨hab.1, hab.2.1.trans hbc.2.1, fun i hi hi' => ?_⟩⟩
  · obtain ⟨hn, hlt, hall⟩ := hab
    obtain ⟨p, hp, -, hstop⟩ := hall (b - 1) (by omega) (by omega)
    have hle := hl p hp
    omega
  · rcases lt_or_ge i b with hlt | hge
    · exact hab.2.2 i hi hlt
    · exact hbc.2.2 i hge hi'

theorem updateNext_of_missing {isn : SequenceNumber32} {l : List (List UInt8 × ℕ)} {n : ℕ} {s : TcpRxBuffer} (hl : Apart l)
    (hnear : ∀ p ∈ l, p.2 < n + 2 ^ 31 ∧ n < p.2 + 2 ^ 31) (hs : s.nextRxSeq = seqAt isn n) (hn : ¬ Held l n) :
    TcpRxBuffer.updateNext s (encode isn l) = some s := by
  induction l with
  | nil => rfl
  | cons p rest ih =>
    obtain ⟨hp, -, hrest⟩ := apart_cons.mp hl
    obtain ⟨hpn, hnp⟩ := hnear p List.mem_cons_self
    rw [encode_cons, TcpRxBuffer.updateNext, hs, lt_seqAt hpn hnp, gt_seqAt hpn hnp]
    by_cases hlt : p.2 < n
    · rw [decide_eq_true hlt, if_pos rfl]
      exact ih hrest (fun q hq => hnear q (List.mem_cons_of_mem p hq)) fun hheld => hn (held_cons.mpr (.inr hheld))
    · have hgt : n < p.2 := lt_of_le_of_ne (not_lt.mp hlt) fun heq =>
        hn (held_cons.mpr (.inl ⟨heq.ge, heq ▸ lt_stop hp⟩))
      rw [decide_eq_false hlt, if_neg Bool.false_ne_true, decide_eq_true hgt, if_pos rfl]

/-- What follows takes blocks from the list only. -/
theorem sackList_updateNext {s s' : TcpRxBuffer} {data : List BufEntry} (h : s.updateNext data = some s') :
    s'.sackList.Sublist s.sackList := by
  induction data generalizing s with
  | nil =>
    obtain rfl := Option.some.inj h
    exact List.Sublist.refl _
  | cons i rest ih =>
    rw [TcpRxBuffer.updateNext] at h
    split_ifs at h with hlt hgt
    · exact ih h
    · obtain rfl := Option.some.inj h
      exact List.Sublist.refl _
    · obtain ⟨cleared, hcleared, h⟩ := Option.bind_eq_some_iff.mp h
      rw [TcpRxBuffer.clearSackList] at hcleared
      split_ifs at hcleared
      obtain rfl := Option.some.inj hcleared
      exact (ih h).trans List.filter_sublist

namespace Placed

variable {isn : SequenceNumber32} {maxBuffer : UInt32} {slack r n f e a b : ℕ} {s : TcpRxBuffer}
  {l : List (List UInt8 × ℕ)} {p : List UInt8 × ℕ} {bytes : List UInt8}

theorem place (h : Placed isn maxBuffer slack s l r n) (hp : p ∈ l) :
    r ≤ p.2 ∧ p.2 < stop p ∧ stop p ≤ r + maxBuffer.toNat + slack ∧ (p.2 < n → stop p ≤ n) := by
  obtain ⟨hr, hw⟩ := h.window p hp
  exact ⟨hr, lt_stop (h.apart.nonempty p hp), hw, fun hlt => not_lt.mp fun hgt => h.missing ⟨p, hp, hlt.le, hgt⟩⟩

theorem next_le (h : Placed isn maxBuffer slack s l r n) : n ≤ r + maxBuffer.toNat + slack := by
  have hread := h.read_le
  rcases hread.eq_or_lt with heq | hlt
  · omega
  · obtain ⟨p, hp, -, hstop⟩ := h.ready (n - 1) (by omega) (by omega)
    have hw := (h.window p hp).2
    omega

theorem read_eq_of_nil (h : Placed isn maxBuffer slack s [] r n) : r = n :=
  h.read_le.antisymm (not_lt.mp fun hlt => not_held_nil (h.ready r le_rfl hlt))

/-- The first piece is the one that can be extracted, if one can. -/
theorem first_eq (h : Placed isn maxBuffer slack s (p :: l) r n) (hlt : r < n) : p.2 = r := by
  obtain ⟨hp, hfirst, -⟩ := apart_cons.mp h.apart
  have hpos := lt_stop hp
  obtain ⟨q, hq, hqr, -⟩ := h.ready r le_rfl hlt
  have hr := (h.window p List.mem_cons_self).1
  rcases List.mem_cons.mp hq with rfl | hq
  · omega
  · have hpq := hfirst q hq
    omega

/-- The lowest number that cannot be accepted is that of the end of the window. -/
theorem maxRxSequence_eq (h : Placed isn maxBuffer slack s l r n) (hmax : maxBuffer.toNat + slack < 2 ^ 30) :
    s.maxRxSequence = seqAt isn (r + maxBuffer.toNat) := by
  have hend : ∀ i, seqAt isn i + s.maxBuffer = seqAt isn (i + maxBuffer.toNat) := fun i => by
    rw [h.max, ← seqAt_add, UInt32.ofNat_toNat]
  rw [TcpRxBuffer.maxRxSequence, h.noFin, if_neg Bool.false_ne_true, h.data, h.next]
  have hle := h.next_le
  have hread := h.read_le
  cases l with
  | nil =>
    rw [h.read_eq_of_nil]
    exact hend n
  | cons p rest =>
    have hp := h.place List.mem_cons_self
    rw [encode_cons]
    dsimp only
    rw [gt_seqAt (by omega) (by omega), hend, hend]
    rcases hread.eq_or_lt with heq | hlt
    · rw [decide_eq_false (by omega), if_neg Bool.false_ne_true, heq]
    · rw [h.first_eq hlt, decide_eq_true hlt, if_pos rfl]

/-! ## Segments -/

section

variable (h : Placed isn maxBuffer slack s l r n)

include h

theorem fitWindow_eq (hmax : maxBuffer.toNat + slack < 2 ^ 30) (hseg : Fits maxBuffer slack r n f e) :
    s.fitWindow (seqAt isn f) (seqAt isn e) =
      (seqAt isn (Tracks.fit n maxBuffer l f e).1, seqAt isn (Tracks.fit n maxBuffer l f e).2) := by
  obtain ⟨hfe, hbefore, hafter, hlate, hearly, -⟩ := hseg
  have hnext := h.next_le
  have hread := h.read_le
  refine Tracks.fitWindow_encode h.next h.data h.max hafter hbefore ?_
  rintro p rest rfl
  have hp := h.place List.mem_cons_self
  exact ⟨by omega, by omega, by omega, by omega⟩

theorem fit_spec (hseg : Fits maxBuffer slack r n f e) (hfit : Tracks.fit n maxBuffer l f e = (a, b)) :
    b ≤ e ∧ (a < b → a = Max.max f n) ∧ (l ≠ [] → a ≤ b) ∧ a ≤ Max.max f n ∧ n ≤ a + slack ∧ n ≤ b + slack ∧
      b ≤ r + maxBuffer.toNat + slack := by
  obtain ⟨hfe, -, -, hlate, -, hinside⟩ := hseg
  have hnext := h.next_le
  have hread := h.read_le
  cases l with
  | nil =>
    obtain ⟨rfl, rfl⟩ := Prod.mk.inj hfit
    have heq := h.read_eq_of_nil
    have hle := hinside heq
    exact ⟨le_rfl, fun _ => rfl, fun hne => absurd rfl hne, le_rfl, by omega, hlate, by omega⟩
  | cons p rest =>
    obtain ⟨rfl, rfl⟩ := Prod.mk.inj hfit
    have hp := h.place List.mem_cons_self
    refine ⟨min_le_left _ _, fun hlt => by omega, fun _ => min_le_right _ _, min_le_left _ _, by omega, by omega, ?_⟩
    rcases hread.eq_or_lt with heq | hlt
    · have hle := hinside heq
      omega
    · have hfirst := h.first_eq hlt
      omega

theorem near_fit (hmax : maxBuffer.toNat + slack < 2 ^ 30) (hseg : Fits maxBuffer slack r n f e)
    (hfit : Tracks.fit n maxBuffer l f e = (a, b)) :
    (∀ q ∈ l, ∀ q' ∈ l, stop q' < q.2 + 2 ^ 31) ∧
      (∀ q ∈ l, q.2 < b + 2 ^ 31 ∧ b < q.2 + 2 ^ 31 ∧ a < q.2 + 2 ^ 31) ∧
        ∀ q ∈ l, q.2 ≤ b → stop q < a + 2 ^ 31 ∧ stop q < b + 2 ^ 31 := by
  obtain ⟨-, -, hne, -, hna, hnb, hb⟩ := h.fit_spec hseg hfit
  have hread := h.read_le
  refine ⟨fun q hq q' hq' => ?_, fun q hq => ?_, fun q hq hqb => ?_⟩
  · have hq := h.place hq
    have hq' := h.place hq'
    omega
  · have hab := hne (List.ne_nil_of_mem hq)
    have hq := h.place hq
    omega
  · have hq := h.place hq
    omega

theorem removeOverlap_eq (hmax : maxBuffer.toNat + slack < 2 ^ 30) (hseg : Fits maxBuffer slack r n f e)
    (hfit : Tracks.fit n maxBuffer l f e = (a, b)) :
    TcpRxBuffer.removeOverlap (seqAt isn a) (seqAt isn b) s.size s.data =
      ⟨seqAt isn (trim a b l).1, seqAt isn (trim a b l).2.1, encode isn (trim a b l).2.2,
        UInt32.ofNat (total (trim a b l).2.2)⟩ := by
  obtain ⟨hext, hnear, hin⟩ := h.near_fit hmax hseg hfit
  rw [h.size, h.data]
  exact removeOverlap_encode h.apart hext hnear hin 0

theorem ge_trim (hmax : maxBuffer.toNat + slack < 2 ^ 30) (hseg : Fits maxBuffer slack r n f e)
    (hfit : Tracks.fit n maxBuffer l f e = (a, b)) :
    ge (seqAt isn (trim a b l).1) (seqAt isn (trim a b l).2.1) = decide ((trim a b l).2.1 ≤ (trim a b l).1) := by
  obtain ⟨hext, hnear, hin⟩ := h.near_fit hmax hseg hfit
  obtain ⟨hbe, -, hne, ha, hna, hnb, hb⟩ := h.fit_spec hseg hfit
  obtain ⟨hfe, -⟩ := hseg
  have hread := h.read_le
  refine ge_trim_encode h.apart hext (fun q hq => (hnear q hq).2.2) (fun q hq hqb => (hin q hq hqb).2) ?_ (by omega)
  cases l with
  | nil =>
    obtain ⟨rfl, rfl⟩ := Prod.mk.inj hfit
    omega
  | cons p rest =>
    have hab := hne (List.cons_ne_nil p rest)
    omega

end

theorem seqAt_add_size (isn : SequenceNumber32) (f : ℕ) (bytes : List UInt8) :
    seqAt isn f + packetSize bytes = seqAt isn (f + bytes.length) := seqAt_add isn f bytes.length

/-- **A segment of which nothing is new** changes nothing. -/
theorem add_none (h : Placed isn maxBuffer slack s l r n) (hmax : maxBuffer.toNat + slack < 2 ^ 30)
    (hseg : Fits maxBuffer slack r n f (f + bytes.length))
    (hfit : Tracks.fit n maxBuffer l f (f + bytes.length) = (a, b)) (hnone : (trim a b l).2.1 ≤ (trim a b l).1) :
    s.add bytes (seqAt isn f) = some (false, s) := by
  have hkept : (trim a b l).2.2 = l := by
    rcases lt_or_ge a b with hlt | hle
    · exact (trim_spec h.apart hlt).kept hnone
    · exact (trim_of_le h.apart hle).2
  rw [TcpRxBuffer.add]
  dsimp only
  rw [seqAt_add_size, h.fitWindow_eq hmax hseg, hfit]
  dsimp only
  rw [h.removeOverlap_eq hmax hseg hfit]
  dsimp only
  rw [h.ge_trim hmax hseg hfit, decide_eq_true hnone, if_pos rfl, hkept, ← h.size, ← h.data]

structure Left (bytes : List UInt8) (l : List (List UInt8 × ℕ)) (f n b : ℕ) (t : ℕ × ℕ × List (List UInt8 × ℕ)) : Prop where
  start : f ≤ t.1
  next : n ≤ t.1
  lt : t.1 < t.2.1
  last : t.2.1 ≤ b
  last_le : b ≤ f + bytes.length
  apart : ∀ p ∈ t.2.2, stop p ≤ t.1 ∨ t.2.1 ≤ p.2
  held : ∀ i, (Held t.2.2 i ∨ t.1 ≤ i ∧ i < t.2.1) ↔ Held l i ∨ Max.max f n ≤ i ∧ i < b
  sublist : t.2.2.Sublist l

theorem left (h : Placed isn maxBuffer slack s l r n) (hseg : Fits maxBuffer slack r n f (f + bytes.length))
    (hfit : Tracks.fit n maxBuffer l f (f + bytes.length) = (a, b)) (hlt : (trim a b l).1 < (trim a b l).2.1) :
    Left bytes l f n b (trim a b l) := by
  obtain ⟨hb, ha, -⟩ := h.fit_spec hseg hfit
  have hab : a < b := not_le.mp fun hle => absurd (trim_of_le h.apart hle).1 (not_le.mpr hlt)
  have hspec := trim_spec h.apart hab
  have hfirst := hspec.first hlt
  have hhead := ha hab
  refine ⟨by omega, by omega, hlt, hspec.last hlt, hb, hspec.apart hlt, fun i => ?_, trim_sublist a b l⟩
  rw [← hhead]
  exact hspec.held hlt i

section Stored

variable {t : ℕ × ℕ × List (List UInt8 × ℕ)}

theorem length_new (ht : Left bytes l f n b t) : (slice bytes (t.1 - f) (t.2.1 - f)).length = t.2.1 - t.1 := by
  have hlast := ht.last
  have hle := ht.last_le
  have hstart := ht.start
  rw [length_slice (by omega)]
  omega

theorem stop_new (ht : Left bytes l f n b t) : stop (slice bytes (t.1 - f) (t.2.1 - f), t.1) = t.2.1 := by
  rw [stop, length_new ht, Nat.add_sub_cancel' ht.lt.le]

theorem mem_stored : p ∈ stored bytes f t ↔ p = (slice bytes (t.1 - f) (t.2.1 - f), t.1) ∨ p ∈ t.2.2 := by
  rw [stored, (perm_insertPiece _ _).mem_iff, List.mem_cons]

theorem apart_stored (hl : Apart l) (ht : Left bytes l f n b t) : Apart (stored bytes f t) := by
  have hlt := ht.lt
  refine apart_insertPiece (hl.sublist ht.sublist) ?_ fun q hq => ?_
  · rw [← List.length_pos_iff, length_new ht]
    omega
  · rw [stop_new ht]
    exact ht.apart q hq

theorem held_stored (ht : Left bytes l f n b t) (i : ℕ) :
    Held (stored bytes f t) i ↔ Held t.2.2 i ∨ t.1 ≤ i ∧ i < t.2.1 := by
  rw [stored, held_perm (perm_insertPiece _ _), held_cons, stop_new ht, or_comm]

theorem Left.subset (ht : Left bytes l f n b t) {i : ℕ} (hi : Held l i) : Held (stored bytes f t) i := by
  rw [held_stored ht, ht.held i]
  exact .inl hi

theorem total_stored (bytes : List UInt8) (f : ℕ) (t : ℕ × ℕ × List (List UInt8 × ℕ)) :
    UInt32.ofNat (total t.2.2) + packetSize (slice bytes (t.1 - f) (t.2.1 - f)) = UInt32.ofNat (total (stored bytes f t)) := by
  rw [stored, total_insertPiece, packetSize, ← UInt32.ofNat_add, Nat.add_comm]

theorem follow_stored (h : Placed isn maxBuffer slack s l r n) (hseg : Fits maxBuffer slack r n f (f + bytes.length))
    (hfit : Tracks.fit n maxBuffer l f (f + bytes.length) = (a, b)) (ht : Left bytes l f n b t) :
    (∀ q ∈ stored bytes f t, r ≤ q.2 ∧ stop q ≤ r + maxBuffer.toNat + slack) ∧ n ≤ follow n (stored bytes f t) ∧
      (∀ i, r ≤ i → i < follow n (stored bytes f t) → Held (stored bytes f t) i) ∧
        ¬ Held (stored bytes f t) (follow n (stored bytes f t)) := by
  obtain ⟨-, -, -, -, -, -, hb⟩ := h.fit_spec hseg hfit
  have hread := h.read_le
  have hnext := ht.next
  have hlast := ht.last
  obtain ⟨hle, hall, hnot⟩ := follow_spec (n := n) (apart_stored h.apart ht) fun q hq hlt => by
    rcases mem_stored.mp hq with rfl | hq
    · exact absurd hlt (not_lt.mpr hnext)
    · exact (h.place (ht.sublist.subset hq)).2.2.2 hlt
  refine ⟨fun q hq => ?_, hle, fun i hi hi' => ?_, hnot⟩
  · rcases mem_stored.mp hq with rfl | hq
    · rw [stop_new ht]
      exact ⟨hread.trans hnext, hlast.trans hb⟩
    · exact h.window q (ht.sublist.subset hq)
  · rcases lt_or_ge i n with hlt | hge
    · exact ht.subset (h.ready i hi hlt)
    · exact hall i hge hi'

end Stored

/-- The code of `Add` with something new, by positions. -/
theorem add_eq (h : Placed isn maxBuffer slack s l r n) (hmax : maxBuffer.toNat + slack < 2 ^ 30)
    (hlen : bytes.length < 2 ^ 31) (hseg : Fits maxBuffer slack r n f (f + bytes.length))
    (hfit : Tracks.fit n maxBuffer l f (f + bytes.length) = (a, b)) (hlt : (trim a b l).1 < (trim a b l).2.1) :
    s.add bytes (seqAt isn f) =
      (if n < (trim a b l).1 then
        TcpRxBuffer.updateSackList (seqAt isn n) (seqAt isn (trim a b l).1) (seqAt isn (trim a b l).2.1) s.sackList
      else some s.sackList).bind fun sackList =>
        (TcpRxBuffer.updateNext { s with
          data := encode isn (stored bytes f (trim a b l))
          sackList := sackList
          size := UInt32.ofNat (total (stored bytes f (trim a b l))) } (encode isn (stored bytes f (trim a b l)))).map
            fun s => (true, if s.gotFin && s.nextRxSeq == s.finSeq then { s with nextRxSeq := s.nextRxSeq + 1 } else s) := by
  have ht := h.left hseg hfit hlt
  obtain ⟨hwindow, -⟩ := h.follow_stored hseg hfit ht
  obtain ⟨-, -, -, -, -, -, hb⟩ := h.fit_spec hseg hfit
  have hread := h.read_le
  have hnext := h.next_le
  have hstart := ht.start
  have hnext' := ht.next
  have hlast := ht.last
  have hlast_le := ht.last_le
  have hfrag : fragmentOf bytes (sub (seqAt isn (trim a b l).1) (seqAt isn f)).toUInt32
      (sub (seqAt isn (trim a b l).2.1) (seqAt isn (trim a b l).1)).toUInt32 =
        some (slice bytes ((trim a b l).1 - f) ((trim a b l).2.1 - f)) := by
    rw [toUInt32_sub, toUInt32_sub, seqAt_sub_seqAt hstart, seqAt_sub_seqAt hlt.le,
      fragmentOf_eq _ (by omega) (by omega) (by omega)]
    congr 2
    omega
  have hnear : ∀ q ∈ (trim a b l).2.2,
      (trim a b l).1 < q.2 + 2 ^ 31 ∧ q.2 < (trim a b l).1 + 2 ^ 31 ∧ (trim a b l).1 ≠ q.2 := by
    intro q hq
    have hq' := h.place (ht.sublist.subset hq)
    have hq'' := ht.apart q hq
    refine ⟨by omega, by omega, by omega⟩
  have hinsert : insertData (seqAt isn (trim a b l).1) (slice bytes ((trim a b l).1 - f) ((trim a b l).2.1 - f))
      (encode isn (trim a b l).2.2) = encode isn (stored bytes f (trim a b l)) := insertData_encode isn hnear
  rw [TcpRxBuffer.add]
  dsimp only
  rw [seqAt_add_size, h.fitWindow_eq hmax hseg, hfit]
  dsimp only
  rw [h.removeOverlap_eq hmax hseg hfit]
  dsimp only
  rw [h.ge_trim hmax hseg hfit, decide_eq_false (not_le.mpr hlt), if_neg Bool.false_ne_true, hfrag, Option.bind_some,
    any_encode hnear, if_neg Bool.false_ne_true, hinsert, h.next, gt_seqAt (by omega) (by omega), total_stored]
  simp only [decide_eq_true_eq]

/-- **A segment beyond the byte that is missing** is stored, and reported. -/
theorem add_beyond (h : Placed isn maxBuffer slack s l r n) (hmax : maxBuffer.toNat + slack < 2 ^ 30)
    (hlen : bytes.length < 2 ^ 31) (hseg : Fits maxBuffer slack r n f (f + bytes.length))
    (hfit : Tracks.fit n maxBuffer l f (f + bytes.length) = (a, b)) (hlt : (trim a b l).1 < (trim a b l).2.1)
    (hgap : n < (trim a b l).1) : ∃ s', s.add bytes (seqAt isn f) = some (true, s') ∧
      Placed isn maxBuffer slack s' (stored bytes f (trim a b l)) r n ∧
        TcpRxBuffer.updateSackList (seqAt isn n) (seqAt isn (trim a b l).1) (seqAt isn (trim a b l).2.1) s.sackList =
          some s'.sackList := by
  have ht := h.left hseg hfit hlt
  have hapart := apart_stored h.apart ht
  obtain ⟨hwindow, -, hready, -⟩ := h.follow_stored hseg hfit ht
  have hread := h.read_le
  have hnext := h.next_le
  have hmissing : ¬ Held (stored bytes f (trim a b l)) n := by
    rw [held_stored ht]
    rintro (⟨q, hq, hin⟩ | hin)
    · exact h.missing ⟨q, ht.sublist.subset hq, hin⟩
    · omega
  have hnear : ∀ q ∈ stored bytes f (trim a b l), q.2 < n + 2 ^ 31 ∧ n < q.2 + 2 ^ 31 := fun q hq => by
    have hpos := lt_stop (hapart.nonempty q hq)
    have hq := hwindow q hq
    exact ⟨by omega, by omega⟩
  have hmerge : Mergeable n (Listed (stored bytes f (trim a b l)) n) :=
    mergeable_listed (fun q hq => (hwindow q hq).2) (by omega)
  obtain ⟨sacks, hsacks, hsacks'⟩ := @updateSackList_blockOf isn _ _ s.sackList hmerge _ _ _ le_rfl hgap
    ⟨hgap, hlt, fun i hi hi' => (held_stored ht i).mpr (.inr ⟨hi, hi'⟩)⟩ fun x hx => by
      obtain ⟨c, d, rfl, hc, hcd, hall⟩ := h.sacks x hx
      exact ⟨c, d, rfl, hc, hcd, fun i hi hi' => ht.subset (hall i hi hi')⟩
  have hnone := updateNext_of_missing (s := { s with
    data := encode isn (stored bytes f (trim a b l))
    sackList := sacks
    size := UInt32.ofNat (total (stored bytes f (trim a b l))) }) hapart hnear h.next hmissing
  have hadd := h.add_eq hmax hlen hseg hfit hlt
  rw [if_pos hgap, hsacks, Option.bind_some, hnone, Option.map_some, h.noFin, Bool.false_and, if_neg Bool.false_ne_true] at hadd
  exact ⟨_, hadd, ⟨rfl, hapart, rfl, h.next, h.avail, hread, fun i hi hi' => ht.subset (h.ready i hi hi'), hmissing, hwindow,
    hsacks', h.max, rfl⟩, hsacks⟩

/-- **The byte that is missing** is there, and all that follows on it is ready. -/
theorem add_next (h : Placed isn maxBuffer slack s l r n) (hmax : maxBuffer.toNat + slack < 2 ^ 30)
    (hlen : bytes.length < 2 ^ 31) (hseg : Fits maxBuffer slack r n f (f + bytes.length))
    (hfit : Tracks.fit n maxBuffer l f (f + bytes.length) = (a, b)) (hlt : (trim a b l).1 < (trim a b l).2.1)
    (hnogap : (trim a b l).1 = n) : ∃ s', s.add bytes (seqAt isn f) = some (true, s') ∧
      Placed isn maxBuffer slack s' (stored bytes f (trim a b l)) r (follow n (stored bytes f (trim a b l))) ∧
        (trim a b l).2.1 ≤ follow n (stored bytes f (trim a b l)) ∧ s'.sackList.Sublist s.sackList := by
  have ht := h.left hseg hfit hlt
  have hapart := apart_stored h.apart ht
  obtain ⟨hwindow, hle, hready, hmissing⟩ := h.follow_stored hseg hfit ht
  have hread := h.read_le
  have hnext := h.next_le
  have hmerge : Mergeable n (Listed (stored bytes f (trim a b l)) n) :=
    mergeable_listed (fun q hq => (hwindow q hq).2) (by omega)
  obtain ⟨blocks, hrun, hblocks⟩ := updateNext_encode (s := { s with
      data := encode isn (stored bytes f (trim a b l))
      size := UInt32.ofNat (total (stored bytes f (trim a b l))) })
    hmerge hapart hwindow hread le_rfl hnext (by omega) h.next fun x hx => by
      obtain ⟨c, d, rfl, hc, hcd, hall⟩ := h.sacks x hx
      exact ⟨c, d, rfl, ⟨hc, hcd, fun i hi hi' => ht.subset (hall i hi hi')⟩, hc.trans hcd⟩
  have hnew : (trim a b l).2.1 ≤ follow n (stored bytes f (trim a b l)) := not_lt.mp fun hshort =>
    hmissing ((held_stored ht _).mpr (.inr ⟨hnogap.le.trans hle, hshort⟩))
  have hsub := sackList_updateNext hrun
  have hadd := h.add_eq hmax hlen hseg hfit hlt
  rw [if_neg (by omega), Option.bind_some, hrun, Option.map_some] at hadd
  dsimp only at hadd
  rw [h.noFin, Bool.false_and, if_neg Bool.false_ne_true] at hadd
  refine ⟨_, hadd, ⟨rfl, hapart, rfl, rfl, ?_, hread.trans hle, hready, hmissing, hwindow, fun x hx => ?_, h.max, rfl⟩, hnew,
    hsub⟩
  · show s.availBytes + UInt32.ofNat _ = _
    rw [h.avail, ← UInt32.ofNat_add]
    congr 1
    omega
  · -- a block that is not up to the byte that is missing now is beyond it
    obtain ⟨c, d, rfl, ⟨hc, hcd, hall⟩, hbeyond⟩ := hblocks x hx
    exact ⟨c, d, rfl, not_le.mp fun hcn => hmissing (hall _ hcn hbeyond), hcd, hall⟩

/-- **Bytes are taken** from the beginning, as many as are asked for and ready. -/
theorem extract (h : Placed isn maxBuffer slack s l r n) (hmax : maxBuffer.toNat + slack < 2 ^ 30) (maxSize : UInt32) :
    ∃ out s' l', s.extract maxSize = some (out, s') ∧
      Placed isn maxBuffer slack s' l' (r + min maxSize.toNat (n - r)) n ∧ s'.sackList = s.sackList := by
  have hread := h.read_le
  have hnext := h.next_le
  obtain ⟨k, hk⟩ : ∃ k, k = min maxSize.toNat (n - r) := ⟨_, rfl⟩
  have havail : s.availBytes.toNat = n - r := by
    rw [h.avail, UInt32.toNat_ofNat_of_lt' (show _ < 2 ^ 32 by omega)]
  have hsize : min maxSize s.availBytes = UInt32.ofNat k := by
    rw [← UInt32.toNat_inj, UInt32.toNat_ofNat_of_lt' (show k < 2 ^ 32 by omega), hk, ← havail]
    show (if maxSize ≤ s.availBytes then maxSize else _).toNat = _
    by_cases hle : maxSize ≤ s.availBytes
    · rw [if_pos hle, min_eq_left (UInt32.le_iff_toNat_le.mp hle)]
    · rw [if_neg hle, min_eq_right (not_le.mp fun h => hle (UInt32.le_iff_toNat_le.mpr h)).le]
  rw [TcpRxBuffer.extract, hsize, beq_zero_ofNat (by omega), ← hk]
  by_cases hzero : k = 0
  · rw [decide_eq_true hzero, if_pos rfl, hzero, Nat.add_zero]
    exact ⟨[], s, l, rfl, h, rfl⟩
  · obtain ⟨stream, hstream, hpieces⟩ := h.apart.exists_isPiece (List.replicate (r + maxBuffer.toNat + slack) 0)
      fun q hq => by
        rw [List.length_replicate]
        exact (h.window q hq).2
    obtain ⟨q, hq, -⟩ := h.ready r le_rfl (by omega)
    have hnonempty : s.data.isEmpty = false := by
      rw [h.data, encode, List.isEmpty_map]
      exact List.isEmpty_eq_false_iff.mpr (List.ne_nil_of_mem hq)
    obtain ⟨l', hrun, hapart, -, hheld⟩ := extractLoop_encode (k := k) (s := s) (c := n - (r + k)) h.apart hpieces
      (fun q hq => by have := h.window q hq; omega) (by omega) (fun i hi hi' => h.ready i hi (by omega)) h.next (by omega)
      (by omega) h.size (by rw [h.avail]; congr 1; omega) []
    have hkept : ∀ {i}, Held l i → r + k ≤ i → Held l' i := fun hi hle => (hheld _).mpr ⟨hi, hle⟩
    rw [decide_eq_false hzero, if_neg Bool.false_ne_true, hnonempty, if_neg Bool.false_ne_true, h.data, hrun]
    refine ⟨_, _, l', rfl, ⟨rfl, hapart, rfl, h.next, rfl, by omega, fun i hi hi' => ?_, fun hi => ?_, fun q hq => ?_,
      fun x hx => ?_, h.max, h.noFin⟩, rfl⟩
    · exact hkept (h.ready i (by omega) hi') hi
    · exact h.missing ((hheld n).mp hi).1
    · have hpos := lt_stop (hapart.nonempty q hq)
      obtain ⟨-, hle⟩ := (hheld q.2).mp ⟨q, hq, le_rfl, hpos⟩
      obtain ⟨⟨q', hq', -, hstop⟩, -⟩ := (hheld (stop q - 1)).mp ⟨q, hq, by omega, by omega⟩
      have hw := (h.window q' hq').2
      exact ⟨hle, by omega⟩
    · obtain ⟨c, d, rfl, hc, hcd, hall⟩ := h.sacks x hx
      exact ⟨c, d, rfl, hc, hcd, fun i hi hi' => hkept (hall i hi hi') (by omega)⟩

end Placed

end Ns3Ndn.Internet
