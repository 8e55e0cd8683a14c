import Ns3Ndn.Internet.TcpRxBuffer

/-!
# The receive buffer delivers the stream

What a receiver has of a stream, by positions: the bytes it has accepted and the number of those that were read. A byte is
accepted when it is within the window, which begins at the first byte that is kept. The buffer has just these bytes, as
long as no two positions that it compares are half of the circle of sequence numbers apart.

* `Receiver`, `Receiver.step`: what a receiver has; `Allowed`: the calls of the claim;
* **`run_delivers`**: the bytes extracted, the pieces kept and the counters after any run.
-/

namespace Ns3Ndn.Internet

open Network SequenceNumber32 SliceLib PieceLib

/-! ## What a receiver has -/

structure Receiver where
  accepted : Finset ℕ := ∅
  read : ℕ := 0
  fin : Bool := false

/-- The first place that is not in a set. -/
def prefixLen (accepted : Finset ℕ) : ℕ := Nat.find (Infinite.exists_notMem_finset accepted)

namespace Receiver

variable (σ : Receiver) (length : ℕ) (maxBuffer : UInt32)

/-- The position of `NextRxSequence`: one after the bytes that follow on each other, and after the FIN. -/
def nextPos : ℕ := prefixLen σ.accepted + if σ.fin = true ∧ prefixLen σ.accepted = length then 1 else 0

/-- The end of the window, when a byte is kept. -/
def limit : WithTop ℕ := (σ.accepted.filter fun i => σ.read ≤ i).min + (maxBuffer.toNat : WithTop ℕ)

/-- The bytes of a segment that are within the window. -/
def fitting (first length : ℕ) : Finset ℕ :=
  (Finset.Ico first (first + length)).filter fun i : ℕ => (i : WithTop ℕ) < σ.limit maxBuffer

end Receiver

/-- A call for a stream: a segment by its first position and its length. -/
inductive RxCall where
  | add (first length : ℕ)
  | extract (maxSize : UInt32)
  | setFinSequence

/-- **What a receiver has** after a call. -/
def Receiver.step (maxBuffer : UInt32) (σ : Receiver) : RxCall → Receiver
  | .add first length => { σ with accepted := σ.accepted ∪ σ.fitting maxBuffer first length }
  | .extract maxSize => { σ with read := σ.read + min maxSize.toNat (prefixLen σ.accepted - σ.read) }
  | .setFinSequence => { σ with fin := true }

/-- A call that can be made: segments and the FIN are within `2 ^ 30` of `NextRxSequence`, the ends of segments are less
than half of the circle from the end of the window, and the FIN is set once. -/
def RxCall.Allowed (length : ℕ) (maxBuffer : UInt32) (σ : Receiver) : RxCall → Prop
  | .add first len =>
    first + len ≤ length ∧ first ≤ σ.nextPos length + 2 ^ 30 ∧ σ.nextPos length ≤ first + 2 ^ 30 ∧
      first + len ≤ σ.nextPos length + 2 ^ 30 ∧ σ.nextPos length ≤ first + len + 2 ^ 30 ∧
      ∀ e : ℕ, σ.limit maxBuffer = e → e < first + len + 2 ^ 31 ∧ first + len < e + 2 ^ 31
  | .extract _ => True
  | .setFinSequence => σ.fin = false ∧ length ≤ σ.nextPos length + 2 ^ 30

/-- Calls that can be made one after the other. -/
def RxCall.AllowedFrom (length : ℕ) (maxBuffer : UInt32) : Receiver → List RxCall → Prop
  | _, [] => True
  | σ, c :: rest => c.Allowed length maxBuffer σ ∧ AllowedFrom length maxBuffer (σ.step maxBuffer c) rest

def TcpRxBuffer.call (isn : SequenceNumber32) (stream : List UInt8) (s : TcpRxBuffer) :
    RxCall → Option (List UInt8 × TcpRxBuffer)
  | .add first length => (s.add (slice stream first (first + length)) (seqAt isn first)).map fun r => ([], r.2)
  | .extract maxSize => s.extract maxSize
  | .setFinSequence => some ([], s.setFinSequence (seqAt isn stream.length))

def TcpRxBuffer.runFrom (isn : SequenceNumber32) (stream : List UInt8) :
    List UInt8 × TcpRxBuffer → List RxCall → Option (List UInt8 × TcpRxBuffer)
  | r, [] => some r
  | r, c :: rest => (r.2.call isn stream c).bind fun r' => runFrom isn stream (r.1 ++ r'.1, r'.2) rest

def TcpRxBuffer.run (isn : SequenceNumber32) (stream : List UInt8) (maxBuffer : UInt32) (calls : List RxCall) :
    Option (List UInt8 × TcpRxBuffer) :=
  runFrom isn stream ([], { nextRxSeq := isn, maxBuffer := maxBuffer }) calls

/-- **What the buffer is for**: `out` was read, what is kept are pieces of the stream that do not overlap, and the counters
are as they say. -/
structure Delivers (isn : SequenceNumber32) (stream : List UInt8) (σ : Receiver) (s : TcpRxBuffer) (out : List UInt8) :
    Prop where
  out : out = stream.take σ.read
  data : ∃ l : List (List UInt8 × ℕ), s.data = l.map (fun p => (seqAt isn p.2, p.1)) ∧ Apart l ∧
    (∀ p ∈ l, IsPiece stream p) ∧ (∀ i, Held l i ↔ i ∈ σ.accepted ∧ σ.read ≤ i) ∧ s.size.toNat = total l
  avail : s.availBytes.toNat = prefixLen σ.accepted - σ.read
  next : s.nextRxSeq = seqAt isn (σ.nextPos stream.length)

/-! ## Positions -/

section Positions

variable {isn : SequenceNumber32} {l : List (List UInt8 × ℕ)} {p : List UInt8 × ℕ} {h t n lo hi : ℕ}

def encode (isn : SequenceNumber32) (l : List (List UInt8 × ℕ)) : List BufEntry := l.map fun p => (seqAt isn p.2, p.1)

theorem encode_cons (p : List UInt8 × ℕ) (l : List (List UInt8 × ℕ)) :
    encode isn (p :: l) = (seqAt isn p.2, p.1) :: encode isn l := rfl

theorem seqAt_add_packetSize (p : List UInt8 × ℕ) : seqAt isn p.2 + packetSize p.1 = seqAt isn (stop p) :=
  seqAt_add isn p.2 p.1.length

/-- **The loop over overlaps** trims by positions. -/
theorem removeOverlap_encode (hl : Apart l) (hext : ∀ p ∈ l, ∀ q ∈ l, stop q < p.2 + 2 ^ 31)
    (hnear : ∀ p ∈ l, p.2 < t + 2 ^ 31 ∧ t < p.2 + 2 ^ 31 ∧ h < p.2 + 2 ^ 31)
    (hin : ∀ p ∈ l, p.2 ≤ t → stop p < h + 2 ^ 31 ∧ stop p < t + 2 ^ 31) (c : ℕ) :
    TcpRxBuffer.removeOverlap (seqAt isn h) (seqAt isn t) (UInt32.ofNat (total l + c)) (encode isn l) =
      ⟨seqAt isn (trim h t l).1, seqAt isn (trim h t l).2.1, encode isn (trim h t l).2.2,
        UInt32.ofNat (total (trim h t l).2.2 + c)⟩ := by
  induction l generalizing h t c with
  | nil => rfl
  | cons p rest ih =>
    obtain ⟨hp, hfirst, hrest⟩ := apart_cons.mp hl
    have hpos := lt_stop hp
    have hmem : p ∈ p :: rest := List.mem_cons_self
    obtain ⟨hpt, htp, hhp⟩ := hnear p hmem
    have hpp := hext p hmem p hmem
    have hext' : ∀ q ∈ rest, ∀ q' ∈ rest, stop q' < q.2 + 2 ^ 31 :=
      fun q hq q' hq' => hext q (List.mem_cons_of_mem p hq) q' (List.mem_cons_of_mem p hq')
    have hnear' : ∀ q ∈ rest, q.2 < t + 2 ^ 31 ∧ t < q.2 + 2 ^ 31 ∧ h < q.2 + 2 ^ 31 :=
      fun q hq => hnear q (List.mem_cons_of_mem p hq)
    have hin' : ∀ q ∈ rest, q.2 ≤ t → stop q < h + 2 ^ 31 ∧ stop q < t + 2 ^ 31 :=
      fun q hq => hin q (List.mem_cons_of_mem p hq)
    have hkeep : ∀ r, total (p :: r) + c = total r + (p.1.length + c) := fun r => by rw [total_cons]; omega
    rw [encode_cons, TcpRxBuffer.removeOverlap]
    dsimp only
    rw [le_seqAt hpt htp, seqAt_add_packetSize]
    by_cases hreach : p.2 ≤ t
    · obtain ⟨hsh, hst⟩ := hin p hmem hreach
      rw [decide_eq_true hreach, if_pos rfl, gt_seqAt hsh (by omega), gt_seqAt (by omega) hhp, lt_seqAt hst (by omega),
        le_seqAt (by omega) hhp, ge_seqAt hst (by omega)]
      by_cases hover : h < stop p
      · by_cases hinside : h < p.2 ∧ stop p < t
        · rw [trim_inside hreach hover hinside, decide_eq_true hover, if_pos rfl, decide_eq_true hinside.1,
            decide_eq_true hinside.2, Bool.and_self, if_pos rfl, ← ih hrest hext' hnear' hin' c]
          congr 1
          rw [total_cons, Nat.add_assoc, Nat.add_comm, UInt32.ofNat_add, packetSize, UInt32.add_sub_cancel]
        · rw [trim_overlap hreach hover hinside rfl rfl, decide_eq_true hover, if_pos rfl,
            if_neg (by rwa [← Bool.decide_and, decide_eq_true_eq])]
          have hboth : ∀ q ∈ rest, stop p ≤ q.2 ∧ stop q < p.2 + 2 ^ 31 ∧ q.2 < stop q := fun q hq =>
            ⟨hfirst q hq, hext p hmem q (List.mem_cons_of_mem p hq), lt_stop (hrest.nonempty q hq)⟩
          have hih := @ih (if p.2 ≤ h then stop p else h) (if t ≤ stop p then p.2 else t) hrest hext'
            (fun q hq => by
              have h1 := hnear' q hq
              have h2 := hboth q hq
              split_ifs <;> omega)
            (fun q hq => by
              have h1 := hnear' q hq
              have h2 := hboth q hq
              have h3 := hin' q hq
              split_ifs <;> omega) (p.1.length + c)
          rw [apply_ite (seqAt isn), apply_ite (seqAt isn)] at hih
          simp only [decide_eq_true_eq]
          rw [hkeep, hkeep, hih]
          rfl
      · rw [trim_before hreach (not_lt.mp hover), decide_eq_false hover, if_neg Bool.false_ne_true]
        rw [hkeep, hkeep, ih hrest hext' hnear' hin']
        rfl
    · rw [trim_beyond (not_le.mp hreach), decide_eq_false hreach, if_neg Bool.false_ne_true]
      rfl

theorem ge_trim_encode {a b : ℕ} (hl : Apart l)
    (hext : ∀ p ∈ l, ∀ q ∈ l, stop q < p.2 + 2 ^ 31) (hnear : ∀ p ∈ l, a < p.2 + 2 ^ 31)
    (hin : ∀ p ∈ l, p.2 ≤ b → stop p < b + 2 ^ 31) (hab : a < b + 2 ^ 31) (hba : b < a + 2 ^ 31) :
    ge (seqAt isn (trim a b l).1) (seqAt isn (trim a b l).2.1) = decide ((trim a b l).2.1 ≤ (trim a b l).1) := by
  refine ge_seqAt ?_ ?_
  · rcases trim_first a b l with hf | ⟨p, hp, hpb, hf⟩ <;> rcases trim_last a b l with ht | ⟨q, hq, ht⟩ <;> rw [hf, ht]
    · exact hab
    · exact hnear q hq
    · exact hin p hp hpb
    · exact hext q hq p hp
  · by_cases hlt : (trim a b l).1 < (trim a b l).2.1
    · have hab' : a < b := not_le.mp fun hle => absurd (trim_of_le hl hle).1 (not_le.mpr hlt)
      have hspec := trim_spec hl hab'
      have hf := hspec.first hlt
      have ht := hspec.last hlt
      omega
    · omega

theorem insertData_encode (isn : SequenceNumber32) {b : List UInt8} (hnear : ∀ q ∈ l, h < q.2 + 2 ^ 31 ∧ q.2 < h + 2 ^ 31 ∧ h ≠ q.2) :
    insertData (seqAt isn h) b (encode isn l) = encode isn (insertPiece (b, h) l) := by
  induction l with
  | nil => rfl
  | cons q rest ih =>
    obtain ⟨hhq, hqh, hne⟩ := hnear q List.mem_cons_self
    have hih := ih fun q' hq' => hnear q' (List.mem_cons_of_mem q hq')
    rw [encode_cons, insertData, insertPiece]
    dsimp only
    rw [lt_seqAt hhq hqh, beq_seqAt (by omega) (by omega), decide_eq_false hne, hih]
    by_cases hlt : h < q.2
    · rw [decide_eq_true hlt, if_pos rfl, if_pos hlt]
      rfl
    · rw [decide_eq_false hlt, if_neg Bool.false_ne_true, if_neg Bool.false_ne_true, if_neg hlt]
      rfl

theorem any_encode (hnear : ∀ q ∈ l, h < q.2 + 2 ^ 31 ∧ q.2 < h + 2 ^ 31 ∧ h ≠ q.2) :
    ((encode isn l).any fun i => i.1 == seqAt isn h) = false := by
  rw [encode, List.any_map, List.any_eq_false]
  intro q hq
  obtain ⟨hhq, hqh, hne⟩ := hnear q hq
  show ¬ (seqAt isn q.2 == seqAt isn h) = true
  rw [beq_seqAt (by omega) (by omega), decide_eq_true_eq]
  exact Ne.symm hne

end Positions

/-! ## Blocks to be reported -/

section Blocks

variable {isn : SequenceNumber32} {P : ℕ → ℕ → Prop} {lo : ℕ} {blocks : List SackBlock}

def BlockOf (isn : SequenceNumber32) (P : ℕ → ℕ → Prop) (x : SackBlock) : Prop :=
  ∃ a b, x = (seqAt isn a, seqAt isn b) ∧ P a b

/-- A property of blocks that hold for what two blocks make up, and bounds their positions. -/
structure Mergeable (lo : ℕ) (P : ℕ → ℕ → Prop) : Prop where
  lt : ∀ {a b}, P a b → lo ≤ a ∧ a < b ∧ b < lo + 2 ^ 31
  trans : ∀ {a b c}, P a b → P b c → P a c

theorem mergeOne_blockOf (hP : Mergeable lo P) {first : SackBlock} (hfirst : BlockOf isn P first)
    (hblocks : ∀ x ∈ blocks, BlockOf isn P x) : ∃ r, TcpRxBuffer.mergeOne first blocks = some r ∧
      ∀ m ∈ r, BlockOf isn P m.1 ∧ ∀ x ∈ m.2, BlockOf isn P x := by
  induction blocks with
  | nil => exact ⟨none, rfl, fun m hm => absurd hm (Option.not_mem_none m)⟩
  | cons current rest ih =>
    obtain ⟨a, b, rfl, hab⟩ := hfirst
    obtain ⟨c, d, rfl, hcd⟩ := hblocks current List.mem_cons_self
    have hrest : ∀ x ∈ rest, BlockOf isn P x := fun x hx => hblocks x (List.mem_cons_of_mem _ hx)
    obtain ⟨hla, hlab, hbl⟩ := hP.lt hab
    obtain ⟨hlc, hlcd, hdl⟩ := hP.lt hcd
    rw [TcpRxBuffer.mergeOne]
    dsimp only
    rw [beq_seqAt (by omega) (by omega), beq_seqAt (by omega) (by omega), lt_seqAt (by omega) (by omega),
      lt_seqAt (by omega) (by omega)]
    by_cases hleft : a = d
    · subst hleft
      rw [decide_eq_true rfl, if_pos rfl, decide_eq_true (hlcd.trans hlab), if_pos rfl]
      refine ⟨_, rfl, fun m hm => ?_⟩
      obtain rfl := Option.some.inj hm
      exact ⟨⟨c, b, rfl, hP.trans hcd hab⟩, hrest⟩
    rw [decide_eq_false hleft, if_neg Bool.false_ne_true]
    by_cases hright : b = c
    · subst hright
      rw [decide_eq_true rfl, if_pos rfl, decide_eq_true (hlab.trans hlcd), if_pos rfl]
      refine ⟨_, rfl, fun m hm => ?_⟩
      obtain rfl := Option.some.inj hm
      exact ⟨⟨a, d, rfl, hP.trans hab hcd⟩, hrest⟩
    · rw [decide_eq_false hright, if_neg Bool.false_ne_true]
      obtain ⟨r, hr, hm⟩ := ih hrest
      refine ⟨_, by rw [hr]; rfl, fun _ hmapped => ?_⟩
      obtain ⟨m, hmr, rfl⟩ := Option.map_eq_some_iff.mp hmapped
      obtain ⟨hone, hall⟩ := hm m hmr
      refine ⟨hone, fun x hx => ?_⟩
      rcases List.mem_cons.mp hx with rfl | hx
      · exact ⟨c, d, rfl, hcd⟩
      · exact hall x hx

theorem mergeBlocks_blockOf (hP : Mergeable lo P) (n : ℕ) {first : SackBlock} (hfirst : BlockOf isn P first)
    (hblocks : ∀ x ∈ blocks, BlockOf isn P x) :
    ∃ l, TcpRxBuffer.mergeBlocks n first blocks = some l ∧ ∀ x ∈ l, BlockOf isn P x := by
  induction n generalizing first blocks with
  | zero => exact ⟨_, rfl, List.forall_mem_cons.mpr ⟨hfirst, hblocks⟩⟩
  | succ n ih =>
    obtain ⟨r, hr, hm⟩ := mergeOne_blockOf hP hfirst hblocks
    rw [TcpRxBuffer.mergeBlocks, hr]
    cases r with
    | none => exact ⟨_, rfl, List.forall_mem_cons.mpr ⟨hfirst, hblocks⟩⟩
    | some m => exact ih (hm m rfl).1 (hm m rfl).2

/-- **No assertion of `UpdateSackList` fails.** -/
theorem updateSackList_blockOf (hP : Mergeable lo P) {n h t : ℕ} (hlo : lo ≤ n) (hn : n < h) (hht : P h t)
    (hblocks : ∀ x ∈ blocks, BlockOf isn P x) :
    ∃ l, TcpRxBuffer.updateSackList (seqAt isn n) (seqAt isn h) (seqAt isn t) blocks = some l ∧
      ∀ x ∈ l, BlockOf isn P x := by
  obtain ⟨hlh, hht', htl⟩ := hP.lt hht
  obtain ⟨l, hl, hall⟩ := mergeBlocks_blockOf hP blocks.length ⟨h, t, rfl, hht⟩ hblocks
  rw [TcpRxBuffer.updateSackList, gt_seqAt (by omega) (by omega), decide_eq_true hn, if_pos rfl, hl, Option.map_some]
  refine ⟨_, rfl, fun x hx => ?_⟩
  split_ifs at hx
  · exact hall x (List.dropLast_subset l hx)
  · exact hall x hx

theorem clearSackList_blockOf (hP : Mergeable lo P) {n : ℕ} (hlo : lo ≤ n) (hn : n < lo + 2 ^ 31)
    (hblocks : ∀ x ∈ blocks, BlockOf isn P x) : ∃ l, TcpRxBuffer.clearSackList (seqAt isn n) blocks = some l ∧
      ∀ x ∈ l, BlockOf isn (fun a b => P a b ∧ n < b) x := by
  have hall : (blocks.all fun block => lt block.1 block.2) = true := by
    refine List.all_eq_true.mpr fun x hx => ?_
    obtain ⟨a, b, rfl, hab⟩ := hblocks x hx
    obtain ⟨hla, hlab, hbl⟩ := hP.lt hab
    rw [lt_seqAt (by omega) (by omega), decide_eq_true hlab]
  rw [TcpRxBuffer.clearSackList, if_pos hall]
  refine ⟨_, rfl, fun x hx => ?_⟩
  obtain ⟨hx, hnot⟩ := List.mem_filter.mp hx
  obtain ⟨a, b, rfl, hab⟩ := hblocks x hx
  obtain ⟨hla, hlab, hbl⟩ := hP.lt hab
  rw [le_seqAt (by omega) (by omega), ← decide_not, decide_eq_true_eq, not_le] at hnot
  exact ⟨a, b, rfl, hab, hnot⟩

end Blocks

section Follow

variable {isn : SequenceNumber32} {P : ℕ → ℕ → Prop} {l : List (List UInt8 × ℕ)} {lo hi first n : ℕ} {s : TcpRxBuffer}

theorem Mergeable.and_lt (hP : Mergeable lo P) (n : ℕ) : Mergeable lo fun a b => P a b ∧ n < b :=
  ⟨fun h => hP.lt h.1, fun h h' => ⟨hP.trans h.1 h'.1, h'.2⟩⟩

/-- **The loop over the data** goes on to the end of what follows, and leaves the blocks beyond. -/
theorem updateNext_encode (hP : Mergeable first P) (hl : Apart l) (hin : ∀ p ∈ l, lo ≤ p.2 ∧ stop p ≤ hi)
    (hlo : lo ≤ first) (hfirst : first ≤ n) (hn : n ≤ hi) (hhi : hi < lo + 2 ^ 31) (hs : s.nextRxSeq = seqAt isn n)
    (hblocks : ∀ x ∈ s.sackList, BlockOf isn (fun a b => P a b ∧ n < b) x) :
    ∃ blocks, TcpRxBuffer.updateNext s (encode isn l) =
        some { s with
                nextRxSeq := seqAt isn (follow n l)
                availBytes := s.availBytes + UInt32.ofNat (follow n l - n)
                sackList := blocks } ∧
      ∀ x ∈ blocks, BlockOf isn (fun a b => P a b ∧ follow n l < b) x := by
  have hstay : s = { s with nextRxSeq := seqAt isn n, availBytes := s.availBytes + UInt32.ofNat (n - n) } := by
    rw [Nat.sub_self, ← hs]
    exact (congrArg (fun b => { s with availBytes := b }) (UInt32.add_zero s.availBytes)).symm
  induction l generalizing n s with
  | nil => exact ⟨s.sackList, congrArg some hstay, hblocks⟩
  | cons p rest ih =>
    obtain ⟨hp, hbeyond, hrest⟩ := apart_cons.mp hl
    have hpos := lt_stop hp
    obtain ⟨hlop, hhip⟩ := hin p List.mem_cons_self
    have hin' : ∀ q ∈ rest, lo ≤ q.2 ∧ stop q ≤ hi := fun q hq => hin q (List.mem_cons_of_mem p hq)
    rw [encode_cons, TcpRxBuffer.updateNext, follow]
    dsimp only
    rw [hs, lt_seqAt (by omega) (by omega), gt_seqAt (by omega) (by omega), seqAt_add_packetSize]
    by_cases hlt : p.2 < n
    · rw [decide_eq_true hlt, if_pos rfl, if_pos hlt]
      exact ih hrest hin' hfirst hn hs hblocks hstay
    rw [decide_eq_false hlt, if_neg Bool.false_ne_true, if_neg hlt]
    by_cases hgt : n < p.2
    · rw [decide_eq_true hgt, if_pos rfl, if_pos hgt]
      exact ⟨s.sackList, congrArg some hstay, hblocks⟩
    · have heq : p.2 = n := by omega
      rw [decide_eq_false hgt, if_neg Bool.false_ne_true, if_neg hgt]
      obtain ⟨cleared, hcleared, hall⟩ :=
        clearSackList_blockOf (hP.and_lt n) (by omega : first ≤ stop p) (by omega) hblocks
      rw [hcleared, Option.bind_some]
      obtain ⟨blocks, hblocks', hall'⟩ := @ih (stop p)
        { s with nextRxSeq := seqAt isn (stop p), availBytes := s.availBytes + packetSize p.1, sackList := cleared }
        hrest hin' (by omega) hhip rfl
        (fun x hx => by
          obtain ⟨a, b, hx, hab⟩ := hall x hx
          exact ⟨a, b, hx, hab.1.1, hab.2⟩)
        (by rw [Nat.sub_self]; congr 1; exact (UInt32.add_zero _).symm)
      refine ⟨blocks, ?_, hall'⟩
      rw [hblocks']
      have hle := (follow_spec hrest fun q hq hlt => absurd hlt (not_lt.mpr (hbeyond q hq))).1
      have hsum : follow (stop p) rest - n = p.1.length + (follow (stop p) rest - stop p) := by
        have hlength : stop p = p.2 + p.1.length := rfl
        omega
      rw [hsum, UInt32.ofNat_add, ← UInt32.add_assoc]
      rfl

end Follow

section Extract

variable {isn : SequenceNumber32} {stream : List UInt8} {l : List (List UInt8 × ℕ)} {p : List UInt8 × ℕ} {lo hi n k : ℕ}
  {s : TcpRxBuffer}

theorem take_append_slice {i j : ℕ} (h : i ≤ j) (hj : i ≤ stream.length) :
    stream.take i ++ slice stream i j = stream.take j := by
  have hslice : ∀ n, stream.take n = slice stream 0 n := fun n => by rw [slice, List.drop_zero, Nat.sub_zero]
  rw [hslice, hslice, slice_append_slice (Nat.zero_le i) h hj]

/-- **The loop of `Extract`** takes the bytes from the beginning of the pieces. -/
theorem extractLoop_encode {r c : ℕ} (hl : Apart l) (hpieces : ∀ p ∈ l, IsPiece stream p)
    (hin : ∀ p ∈ l, r ≤ p.2 ∧ stop p < r + 2 ^ 31) (hk : k < 2 ^ 31) (hheld : ∀ i, r ≤ i → i < r + k → Held l i)
    (hnext : s.nextRxSeq = seqAt isn n) (hn : r + k ≤ n) (hn' : n < r + 2 ^ 31)
    (hsize : s.size = UInt32.ofNat (total l)) (havail : s.availBytes = UInt32.ofNat (k + c)) (out : List UInt8) :
    ∃ l', TcpRxBuffer.extractLoop (encode isn l) (UInt32.ofNat k) s out =
        some (out ++ slice stream r (r + k),
          { s with data := encode isn l', size := UInt32.ofNat (total l'), availBytes := UInt32.ofNat c }) ∧
      Apart l' ∧ (∀ p ∈ l', IsPiece stream p) ∧ ∀ i, Held l' i ↔ Held l i ∧ r + k ≤ i := by
  induction l generalizing r k s out with
  | nil =>
    have hzero : k = 0 := by
      by_contra hne
      exact not_held_nil (hheld r le_rfl (by omega))
    subst hzero
    rw [Nat.zero_add] at havail
    refine ⟨[], ?_, hl, hpieces, fun i => iff_of_false not_held_nil fun h => not_held_nil h.1⟩
    rw [← hsize, ← havail, Nat.add_zero, slice_self, List.append_nil]
    rfl
  | cons p rest ih =>
    obtain ⟨hp, hbeyond, hrest⟩ := apart_cons.mp hl
    have hpos := lt_stop hp
    have hlength : stop p = p.2 + p.1.length := rfl
    obtain ⟨hrp, hpr⟩ := hin p List.mem_cons_self
    rw [encode_cons, TcpRxBuffer.extractLoop, beq_zero_ofNat (by omega)]
    by_cases hzero : k = 0
    · subst hzero
      rw [Nat.zero_add] at havail
      refine ⟨p :: rest, ?_, hl, hpieces, fun i => (and_iff_left_of_imp fun hi => ?_).symm⟩
      · rw [decide_eq_true rfl, if_pos rfl, ← hsize, ← havail, Nat.add_zero, slice_self, List.append_nil]
        rfl
      · exact Held.le (fun q hq => (hin q hq).1) hi
    · have hstart : p.2 = r := by
        obtain ⟨q, hq, hle, -⟩ := hheld r le_rfl (by omega)
        rcases List.mem_cons.mp hq with rfl | hq
        · exact le_antisymm hle hrp
        · have hqp := hbeyond q hq
          omega
      have hpiece : p.1 = slice stream r (stop p) := hstart ▸ (hpieces p List.mem_cons_self).eq
      have hend := (hpieces p List.mem_cons_self).le
      rw [decide_eq_false hzero, if_neg Bool.false_ne_true]
      dsimp only
      have hready : le (seqAt isn p.2) s.nextRxSeq = true := by
        rw [hnext, le_seqAt (by omega) (by omega), decide_eq_true (by omega : p.2 ≤ n)]
      rw [hready, if_pos rfl]
      by_cases hwhole : p.1.length ≤ k
      · have hle : packetSize p.1 ≤ UInt32.ofNat k := (ofNat_le_ofNat (by omega) (by omega)).mpr hwhole
        rw [if_pos hle, packetSize, ofNat_sub_ofNat hwhole]
        obtain ⟨m, rfl⟩ := Nat.exists_eq_add_of_le hwhole
        rw [Nat.add_sub_cancel_left]
        obtain ⟨l', hrun, hl', hpieces', hheld'⟩ := ih (r := stop p) (k := m)
          (s := { s with
                  size := s.size - UInt32.ofNat p.1.length
                  availBytes := s.availBytes - UInt32.ofNat p.1.length }) hrest
          (fun q hq => hpieces q (List.mem_cons_of_mem p hq))
          (fun q hq => ⟨hbeyond q hq, by have := (hin q (List.mem_cons_of_mem p hq)).2; omega⟩) (by omega)
          (fun i hi hi' => by
            rcases held_cons.mp (hheld i (by omega) (by omega)) with hheld | hheld
            · omega
            · exact hheld) hnext (by omega) (by omega)
          (by rw [hsize, total_cons, ofNat_sub_ofNat (by omega), Nat.add_sub_cancel_left])
          (by rw [havail, ofNat_sub_ofNat (by omega), Nat.add_assoc, Nat.add_sub_cancel_left]) (out ++ p.1)
        have hsum : stop p + m = r + (p.1.length + m) := by rw [hlength, hstart, Nat.add_assoc]
        have hout : out ++ p.1 ++ slice stream (stop p) (stop p + m) = out ++ slice stream r (stop p + m) := by
          rw [hpiece, List.append_assoc, slice_append_slice (by omega) (Nat.le_add_right _ m) hend]
        rw [hout, hsum] at hrun
        rw [hsum] at hheld'
        refine ⟨l', hrun, hl', hpieces', fun i => ?_⟩
        rw [hheld' i, held_cons]
        constructor
        · exact fun h => ⟨.inr h.1, h.2⟩
        · rintro ⟨hi | hi, hi'⟩
          · omega
          · exact ⟨hi, hi'⟩
      · -- a part of the piece is taken, and the rest is put back
        have hshort : k < p.1.length := not_le.mp hwhole
        have hle : ¬ packetSize p.1 ≤ UInt32.ofNat k := by
          rwa [packetSize, ofNat_le_ofNat (by omega) (by omega)]
        have hfront : fragmentOf p.1 0 (UInt32.ofNat k) = some (slice p.1 0 k) := by
          have h := fragmentOf_eq p.1 (by norm_num : 0 < 2 ^ 32) (hk.trans (by norm_num) : k < 2 ^ 32) (by omega)
          rwa [Nat.zero_add] at h
        have hback : fragmentOf p.1 (UInt32.ofNat k) (UInt32.ofNat (p.1.length - k)) =
            some (slice p.1 k p.1.length) := by
          have h := fragmentOf_eq p.1 (by omega : k < 2 ^ 32) (by omega : p.1.length - k < 2 ^ 32) (by omega)
          rwa [Nat.add_sub_cancel' hshort.le] at h
        have hfront' : slice p.1 0 k = slice stream r (r + k) := by
          rw [hpiece, slice_slice (by omega), Nat.add_zero]
        have hback' : slice p.1 k p.1.length = slice stream (r + k) (stop p) := by
          rw [hpiece, slice_slice (by rw [← hpiece]; omega), ← hpiece, ← hstart, hlength]
        have hstop' : stop (slice p.1 k p.1.length, r + k) = stop p := by
          rw [stop, length_slice le_rfl, Nat.add_assoc, Nat.add_sub_cancel' hshort.le, hlength, hstart]
        have hput : insertPiece (slice p.1 k p.1.length, r + k) (p :: rest) =
            p :: (slice p.1 k p.1.length, r + k) :: rest := by
          rw [insertPiece, if_neg (by dsimp only; omega)]
          congr 1
          cases rest with
          | nil => rfl
          | cons q rest =>
            have hq := hbeyond q List.mem_cons_self
            rw [insertPiece, if_pos (by dsimp only; omega)]
        rw [if_neg hle, packetSize, ofNat_sub_ofNat hshort.le, hfront, Option.bind_some, hback, Option.map_some,
          hfront', hstart, seqAt_add]
        have hinsert := insertData_encode isn (b := slice p.1 k p.1.length) (h := r + k) (l := p :: rest)
          fun q hq => by
            have hq' := hin q hq
            have hlt := lt_stop (hl.nonempty q hq)
            rcases List.mem_cons.mp hq with rfl | hq
            · omega
            · have hpq := hbeyond q hq
              omega
        rw [encode_cons, hstart] at hinsert
        refine ⟨(slice p.1 k p.1.length, r + k) :: rest, ?_, ?_, ?_, fun i => ?_⟩
        · rw [hinsert, hput, encode_cons, hstart, eraseData, List.eraseP_cons_of_pos (by exact beq_self_eq_true _), hsize, havail,
            total_cons, total_cons, length_slice le_rfl, ofNat_sub_ofNat (by omega), ofNat_sub_ofNat (by omega)]
          congr 4 <;> omega
        · refine apart_cons.mpr ⟨?_, fun q hq => ?_, hrest⟩
          · rw [← List.length_pos_iff, length_slice le_rfl]
            exact Nat.sub_pos_of_lt hshort
          · rw [hstop']
            exact hbeyond q hq
        · refine List.forall_mem_cons.mpr ⟨⟨?_, ?_⟩, fun q hq => hpieces q (List.mem_cons_of_mem p hq)⟩
          · rw [hstop']
            exact hback'
          · rw [hstop']
            exact hend
        · rw [held_cons, held_cons, hstop']
          dsimp only
          constructor
          · rintro (⟨hi, hi'⟩ | hi)
            · exact ⟨.inl ⟨by omega, hi'⟩, hi⟩
            · have hle := Held.le hbeyond hi
              exact ⟨.inr hi, by omega⟩
          · rintro ⟨⟨-, hi⟩ | hi, hi'⟩
            · exact .inl ⟨hi', hi⟩
            · exact .inr hi

end Extract

/-! ## The buffer has what the receiver has -/

theorem prefixLen_notMem (accepted : Finset ℕ) : prefixLen accepted ∉ accepted :=
  Nat.find_spec (Infinite.exists_notMem_finset accepted)

theorem mem_of_lt_prefixLen {accepted : Finset ℕ} {i : ℕ} (h : i < prefixLen accepted) : i ∈ accepted :=
  not_not.mp (Nat.find_min (Infinite.exists_notMem_finset accepted) h)

theorem prefixLen_eq {accepted : Finset ℕ} {n : ℕ} (hn : n ∉ accepted) (h : ∀ i < n, i ∈ accepted) :
    prefixLen accepted = n := by
  refine le_antisymm (Nat.find_min' _ hn) (not_lt.mp fun hlt => ?_)
  exact prefixLen_notMem accepted (h _ hlt)

/-- A block that can be reported: bytes beyond the first one that is missing. -/
def Reported (accepted : Finset ℕ) (n a b : ℕ) : Prop := n < a ∧ a < b ∧ ∀ i, a ≤ i → i < b → i ∈ accepted

theorem mergeable_reported {accepted : Finset ℕ} {n : ℕ} (h : ∀ i ∈ accepted, i < n + 2 ^ 30) :
    Mergeable n (Reported accepted n) := by
  refine ⟨fun {a b} hab => ?_, fun {a b c} hab hbc => ⟨hab.1, hab.2.1.trans hbc.2.1, fun i hi hi' => ?_⟩⟩
  · have hlt := hab.2.1
    have hlast := h _ (hab.2.2 (b - 1) (by omega) (by omega))
    have hn := hab.1
    omega
  · rcases lt_or_ge i b with hlt | hge
    · exact hab.2.2 i hi hlt
    · exact hbc.2.2 i hge hi'

/-- **The buffer has what the receiver has**, in the pieces `l`, and `out` was extracted. -/
structure Tracks (isn : SequenceNumber32) (stream : List UInt8) (maxBuffer : UInt32) (σ : Receiver) (s : TcpRxBuffer)
    (out : List UInt8) (l : List (List UInt8 × ℕ)) : Prop where
  data : s.data = encode isn l
  apart : Apart l
  pieces : ∀ p ∈ l, IsPiece stream p
  held : ∀ i, Held l i ↔ i ∈ σ.accepted ∧ σ.read ≤ i
  size : s.size = UInt32.ofNat (total l)
  next : s.nextRxSeq = seqAt isn (σ.nextPos stream.length)
  avail : s.availBytes = UInt32.ofNat (prefixLen σ.accepted - σ.read)
  gotFin : s.gotFin = σ.fin
  finSeq : σ.fin = true → s.finSeq = seqAt isn stream.length ∧ stream.length ≤ prefixLen σ.accepted + 2 ^ 30
  max : s.maxBuffer = maxBuffer
  out : out = stream.take σ.read
  read_le : σ.read ≤ prefixLen σ.accepted
  inside : ∀ i ∈ σ.accepted, i < stream.length
  near : ∀ i ∈ σ.accepted, i < prefixLen σ.accepted + 2 ^ 30
  window : ∀ i ∈ σ.accepted, i < σ.read + Max.max maxBuffer.toNat (2 ^ 30)
  sacks : ∀ x ∈ s.sackList, BlockOf isn (Reported σ.accepted (prefixLen σ.accepted)) x

namespace Tracks

variable {isn : SequenceNumber32} {stream : List UInt8} {maxBuffer : UInt32} {σ : Receiver} {s : TcpRxBuffer}
  {out : List UInt8} {l : List (List UInt8 × ℕ)} {p : List UInt8 × ℕ}

/-- Where the first missing byte is, and `NextRxSequence`. -/
theorem bounds (h : Tracks isn stream maxBuffer σ s out l) :
    prefixLen σ.accepted ≤ stream.length ∧ prefixLen σ.accepted ≤ σ.read + Max.max maxBuffer.toNat (2 ^ 30) ∧
      (σ.nextPos stream.length = prefixLen σ.accepted ∨
        σ.nextPos stream.length = prefixLen σ.accepted + 1 ∧ prefixLen σ.accepted = stream.length) := by
  refine ⟨not_lt.mp fun hlt => ?_, not_lt.mp fun hlt => ?_, ?_⟩
  · exact absurd (h.inside _ (mem_of_lt_prefixLen hlt)) (lt_irrefl _)
  · exact absurd (h.window _ (mem_of_lt_prefixLen hlt)) (lt_irrefl _)
  · rw [Receiver.nextPos]
    split_ifs with hfin
    · exact .inr ⟨rfl, hfin.2⟩
    · exact .inl rfl

/-- Where a piece is. -/
theorem place (h : Tracks isn stream maxBuffer σ s out l) (hp : p ∈ l) :
    σ.read ≤ p.2 ∧ p.2 < stop p ∧ stop p ≤ σ.read + Max.max maxBuffer.toNat (2 ^ 30) ∧
      stop p ≤ prefixLen σ.accepted + 2 ^ 30 ∧ (p.2 < prefixLen σ.accepted → stop p ≤ prefixLen σ.accepted) := by
  have hpos := lt_stop (h.apart.nonempty p hp)
  have hmem : ∀ i, p.2 ≤ i → i < stop p → i ∈ σ.accepted ∧ σ.read ≤ i := fun i hi hi' =>
    (h.held i).mp ⟨p, hp, hi, hi'⟩
  obtain ⟨-, hread⟩ := hmem p.2 le_rfl hpos
  obtain ⟨hlast, -⟩ := hmem (stop p - 1) (by omega) (by omega)
  have hwindow := h.window _ hlast
  have hnear := h.near _ hlast
  refine ⟨hread, hpos, by omega, by omega, fun hlt => not_lt.mp fun hgt => ?_⟩
  exact prefixLen_notMem σ.accepted (hmem _ hlt.le hgt).1

theorem limit_nil (h : Tracks isn stream maxBuffer σ s out []) : σ.limit maxBuffer = ⊤ := by
  have hempty : (σ.accepted.filter fun i => σ.read ≤ i) = ∅ := by
    refine Finset.filter_eq_empty_iff.mpr fun i hi hread => ?_
    exact not_held_nil ((h.held i).mpr ⟨hi, hread⟩)
  rw [Receiver.limit, hempty, Finset.min_empty, top_add]

theorem limit_cons (h : Tracks isn stream maxBuffer σ s out (p :: l)) :
    σ.limit maxBuffer = ((p.2 + maxBuffer.toNat : ℕ) : WithTop ℕ) := by
  obtain ⟨hp, hfirst, -⟩ := apart_cons.mp h.apart
  have hmin : (σ.accepted.filter fun i => σ.read ≤ i).min = (p.2 : WithTop ℕ) := by
    refine le_antisymm (Finset.min_le ?_) (Finset.le_min fun i hi => ?_)
    · exact Finset.mem_filter.mpr ((h.held p.2).mp ⟨p, List.mem_cons_self, le_rfl, lt_stop hp⟩)
    · have hheld := (h.held i).mpr (Finset.mem_filter.mp hi)
      refine WithTop.coe_le_coe.mpr (Held.le (List.forall_mem_cons.mpr ⟨le_rfl, fun q hq => ?_⟩) hheld)
      exact (lt_stop hp).le.trans (hfirst q hq)
  rw [Receiver.limit, hmin, Nat.cast_add]

/-- The window, by positions. -/
def fit (n : ℕ) (maxBuffer : UInt32) (l : List (List UInt8 × ℕ)) (h t : ℕ) : ℕ × ℕ :=
  match l with
  | [] => (Max.max h n, t)
  | p :: _ => (min (Max.max h n) (min t (p.2 + maxBuffer.toNat)), min t (p.2 + maxBuffer.toNat))

/-- The later of two numbers, or the earlier one, as the code chooses them. -/
theorem ite_lt_seqAt (isn : SequenceNumber32) {a b : ℕ} (h : a < b + 2 ^ 31) (h' : b < a + 2 ^ 31) :
    (if lt (seqAt isn a) (seqAt isn b) then seqAt isn b else seqAt isn a) = seqAt isn (Max.max a b) ∧
      (if lt (seqAt isn a) (seqAt isn b) then seqAt isn a else seqAt isn b) = seqAt isn (min b a) := by
  rw [lt_seqAt h h']
  by_cases hlt : a < b
  · rw [decide_eq_true hlt, if_pos rfl, if_pos rfl, max_eq_right hlt.le, min_eq_right hlt.le]
    exact ⟨rfl, rfl⟩
  · rw [decide_eq_false hlt, if_neg Bool.false_ne_true, if_neg Bool.false_ne_true, max_eq_left (not_lt.mp hlt),
      min_eq_left (not_lt.mp hlt)]
    exact ⟨rfl, rfl⟩

theorem fitWindow_encode {n f e : ℕ} (hnext : s.nextRxSeq = seqAt isn n) (hdata : s.data = encode isn l)
    (hbuffer : s.maxBuffer = maxBuffer) (hf : f < n + 2 ^ 31) (hn : n < f + 2 ^ 31)
    (hwindow : ∀ p rest, l = p :: rest → p.2 + maxBuffer.toNat < e + 2 ^ 31 ∧ e < p.2 + maxBuffer.toNat + 2 ^ 31 ∧
      min e (p.2 + maxBuffer.toNat) < Max.max f n + 2 ^ 31 ∧ Max.max f n < min e (p.2 + maxBuffer.toNat) + 2 ^ 31) :
    s.fitWindow (seqAt isn f) (seqAt isn e) = (seqAt isn (fit n maxBuffer l f e).1, seqAt isn (fit n maxBuffer l f e).2) := by
  rw [TcpRxBuffer.fitWindow, hnext, hdata, (ite_lt_seqAt isn hf hn).1]
  cases l with
  | nil => rfl
  | cons p rest =>
    obtain ⟨hover, hover', hlow, hhigh⟩ := hwindow p rest rfl
    have hend : seqAt isn p.2 + s.maxBuffer = seqAt isn (p.2 + maxBuffer.toNat) := by
      rw [hbuffer, ← seqAt_add, UInt32.ofNat_toNat]
    rw [encode_cons]
    dsimp only
    rw [hend, (ite_lt_seqAt isn hover hover').2, (ite_lt_seqAt isn hlow hhigh).2, fit]

variable {first len : ℕ}

section

variable (h : Tracks isn stream maxBuffer σ s out l)

include h

theorem fitWindow_eq (hmax : maxBuffer.toNat < 2 ^ 31) (hcall : (RxCall.add first len).Allowed stream.length maxBuffer σ) :
    s.fitWindow (seqAt isn first) (seqAt isn (first + len)) =
      (seqAt isn (fit (σ.nextPos stream.length) maxBuffer l first (first + len)).1,
        seqAt isn (fit (σ.nextPos stream.length) maxBuffer l first (first + len)).2) := by
  obtain ⟨hend, hfirst, hfirst', hlast, hlast', hlimit⟩ := hcall
  obtain ⟨-, hpl, hnext⟩ := h.bounds
  refine fitWindow_encode h.next h.data h.max (by omega) (by omega) ?_
  rintro p rest rfl
  obtain ⟨hread, -⟩ := h.place List.mem_cons_self
  obtain ⟨hover, hover'⟩ := hlimit _ h.limit_cons
  exact ⟨hover, hover', by omega, by omega⟩

theorem fit_spec {n t a b : ℕ} (hfit : fit n maxBuffer l first t = (a, b)) :
    b ≤ t ∧ a ≤ Max.max first n ∧ (a < b → a = Max.max first n) ∧ (l ≠ [] → a ≤ b) ∧
      ∀ i, i < b ↔ i < t ∧ (i : WithTop ℕ) < σ.limit maxBuffer := by
  cases l with
  | nil =>
    obtain ⟨rfl, rfl⟩ := Prod.mk.inj hfit
    refine ⟨le_rfl, le_rfl, fun _ => rfl, fun hne => absurd rfl hne, fun i => ?_⟩
    rw [h.limit_nil]
    exact (and_iff_left (WithTop.coe_lt_top i)).symm
  | cons p rest =>
    obtain ⟨rfl, rfl⟩ := Prod.mk.inj hfit
    refine ⟨min_le_left _ _, min_le_left _ _, fun hlt => by omega, fun _ => min_le_right _ _, fun i => ?_⟩
    rw [h.limit_cons, Nat.cast_lt, lt_min_iff]

theorem mem_fitting {n a b i : ℕ} (hfit : fit n maxBuffer l first (first + len) = (a, b)) :
    i ∈ σ.fitting maxBuffer first len ↔ first ≤ i ∧ i < b := by
  obtain ⟨-, -, -, -, hlimit⟩ := h.fit_spec hfit
  rw [Receiver.fitting, Finset.mem_filter, Finset.mem_Ico, hlimit i, and_assoc]

theorem near_fit (hmax : maxBuffer.toNat < 2 ^ 31) (hcall : (RxCall.add first len).Allowed stream.length maxBuffer σ) {a b : ℕ}
    (hfit : fit (σ.nextPos stream.length) maxBuffer l first (first + len) = (a, b)) :
    (∀ q ∈ l, ∀ q' ∈ l, stop q' < q.2 + 2 ^ 31) ∧
      (∀ q ∈ l, q.2 < b + 2 ^ 31 ∧ b < q.2 + 2 ^ 31 ∧ a < q.2 + 2 ^ 31) ∧
        ∀ q ∈ l, q.2 ≤ b → stop q < a + 2 ^ 31 ∧ stop q < b + 2 ^ 31 := by
  obtain ⟨-, -, -, -, hlast, -⟩ := hcall
  have hpl : prefixLen σ.accepted ≤ σ.nextPos stream.length := by
    obtain ⟨-, -, hnext⟩ := h.bounds
    omega
  have hplace : ∀ q ∈ l, σ.read ≤ q.2 ∧ stop q < σ.read + 2 ^ 31 ∧ stop q ≤ σ.nextPos stream.length + 2 ^ 30 := fun q hq => by
    obtain ⟨hread, -, hstop, hnear, -⟩ := h.place hq
    exact ⟨hread, hstop.trans_lt (Nat.add_lt_add_left (max_lt hmax (by decide)) _), hnear.trans (Nat.add_le_add_right hpl _)⟩
  have hpos : ∀ q ∈ l, q.2 < stop q := fun q hq => (h.place hq).2.1
  refine ⟨fun q hq q' hq' => (hplace q' hq').2.1.trans_le (Nat.add_le_add_right (hplace q hq).1 _), ?_⟩
  cases l with
  | nil => exact ⟨List.forall_mem_nil _, List.forall_mem_nil _⟩
  | cons p rest =>
    have hread := (hplace p List.mem_cons_self).1
    have hle : ∀ q ∈ p :: rest, p.2 ≤ q.2 :=
      List.forall_mem_cons.mpr ⟨le_rfl, fun q hq => (hpos p List.mem_cons_self).le.trans ((apart_cons.mp h.apart).2.1 q hq)⟩
    obtain ⟨rfl, hb⟩ := Prod.mk.inj hfit
    rw [hb]
    constructor
    · intro q hq
      have hbq : b < q.2 + 2 ^ 31 :=
        (hb.ge.trans (min_le_right _ _)).trans_lt (Nat.add_lt_add_of_le_of_lt (hle q hq) hmax)
      refine ⟨(hpos q hq).trans_le ?_, hbq, (min_le_right _ _).trans_lt hbq⟩
      obtain ⟨-, hstop, hnear⟩ := hplace q hq
      rcases min_choice (first + len) (p.2 + maxBuffer.toNat) with hmin | hmin <;> omega
    · intro q hq hqb
      obtain ⟨hqread, hstop, hnear⟩ := hplace q hq
      have hstopb : stop q < b + 2 ^ 31 := by omega
      refine ⟨?_, hstopb⟩
      rcases min_choice (Max.max first (σ.nextPos stream.length)) b with hmin | hmin
      · have hnext := le_max_right first (σ.nextPos stream.length)
        omega
      · exact hmin.symm ▸ hstopb

/-- **A segment of which nothing is new**: all of it was accepted, or is beyond the window. -/
theorem add_none (hcall : (RxCall.add first len).Allowed stream.length maxBuffer σ) {a b : ℕ}
    (hfit : fit (σ.nextPos stream.length) maxBuffer l first (first + len) = (a, b)) (hnone : (trim a b l).2.1 ≤ (trim a b l).1) :
    (trim a b l).2.2 = l ∧ σ.step maxBuffer (.add first len) = σ := by
  obtain ⟨hend, -⟩ := hcall
  obtain ⟨hb, ha, -⟩ := h.fit_spec hfit
  obtain ⟨-, -, hnext⟩ := h.bounds
  have hboth : (trim a b l).2.2 = l ∧ ∀ i, a ≤ i → i < b → Held l i := by
    rcases lt_or_ge a b with hlt | hle
    · have hspec := trim_spec h.apart hlt
      exact ⟨hspec.kept hnone, hspec.there hnone⟩
    · exact ⟨(trim_of_le h.apart hle).2, fun i hi hi' => by omega⟩
  refine ⟨hboth.1, ?_⟩
  have hsub : σ.fitting maxBuffer first len ⊆ σ.accepted := by
    intro i hi
    obtain ⟨hfirst, hib⟩ := (h.mem_fitting hfit).mp hi
    rcases lt_or_ge i a with hlt | hge
    · exact mem_of_lt_prefixLen (by omega)
    · exact ((h.held i).mp (hboth.2 i hge hib)).1
  rw [Receiver.step, Finset.union_eq_left.mpr hsub]

end

/-- The pieces with what is left of a segment. -/
def stored (stream : List UInt8) (r : ℕ × ℕ × List (List UInt8 × ℕ)) : List (List UInt8 × ℕ) :=
  insertPiece (slice stream r.1 r.2.1, r.1) r.2.2

/-- Where a segment is of which something is new. -/
structure Fresh (stream : List UInt8) (σ : Receiver) (l : List (List UInt8 × ℕ)) (first b : ℕ)
    (r : ℕ × ℕ × List (List UInt8 × ℕ)) : Prop where
  next : σ.nextPos stream.length = prefixLen σ.accepted
  first_le : first ≤ r.1
  start : prefixLen σ.accepted ≤ r.1
  lt : r.1 < r.2.1
  last : r.2.1 ≤ b
  last_le : b ≤ stream.length
  apart : ∀ p ∈ r.2.2, stop p ≤ r.1 ∨ r.2.1 ≤ p.2
  held : ∀ i, (Held r.2.2 i ∨ r.1 ≤ i ∧ i < r.2.1) ↔ Held l i ∨ Max.max first (prefixLen σ.accepted) ≤ i ∧ i < b
  sublist : r.2.2.Sublist l

theorem fresh (h : Tracks isn stream maxBuffer σ s out l)
    (hcall : (RxCall.add first len).Allowed stream.length maxBuffer σ) {a b : ℕ}
    (hfit : fit (σ.nextPos stream.length) maxBuffer l first (first + len) = (a, b))
    (hlt : (trim a b l).1 < (trim a b l).2.1) : Fresh stream σ l first b (trim a b l) := by
  obtain ⟨hend, -⟩ := hcall
  obtain ⟨hb, -, ha, -⟩ := h.fit_spec hfit
  obtain ⟨hpl, -, hnext⟩ := h.bounds
  have hab : a < b := not_le.mp fun hle => absurd (trim_of_le h.apart hle).1 (not_le.mpr hlt)
  have hspec := trim_spec h.apart hab
  have hfirst := hspec.first hlt
  have hlast := hspec.last hlt
  have hhead := ha hab
  have hnext' : σ.nextPos stream.length = prefixLen σ.accepted := by omega
  refine ⟨hnext', by omega, by omega, hlt, hlast, by omega, hspec.apart hlt, fun i => ?_, trim_sublist a b l⟩
  rw [← hnext', ← hhead]
  exact hspec.held hlt i

section Stored

variable {b : ℕ} {r : ℕ × ℕ × List (List UInt8 × ℕ)}

theorem stop_new (hr : Fresh stream σ l first b r) : stop (slice stream r.1 r.2.1, r.1) = r.2.1 := by
  have hlt := hr.lt
  have hlast := hr.last
  rw [stop, length_slice (hlast.trans hr.last_le)]
  omega

theorem apart_stored (h : Tracks isn stream maxBuffer σ s out l) (hr : Fresh stream σ l first b r) :
    Apart (stored stream r) := by
  have hlt := hr.lt
  have hlast := hr.last
  refine apart_insertPiece (h.apart.sublist hr.sublist) ?_ fun q hq => ?_
  · rw [← List.length_pos_iff, length_slice (hlast.trans hr.last_le)]
    omega
  · rw [stop_new hr]
    exact hr.apart q hq

theorem pieces_stored (h : Tracks isn stream maxBuffer σ s out l) (hr : Fresh stream σ l first b r) :
    ∀ p ∈ stored stream r, IsPiece stream p := by
  intro p hp
  rcases List.mem_cons.mp ((perm_insertPiece _ _).mem_iff.mp hp) with rfl | hp
  · refine ⟨?_, ?_⟩ <;> rw [stop_new hr]
    exact hr.last.trans hr.last_le
  · exact h.pieces p (hr.sublist.subset hp)

theorem held_stored (hr : Fresh stream σ l first b r) (i : ℕ) :
    Held (stored stream r) i ↔ Held l i ∨ Max.max first (prefixLen σ.accepted) ≤ i ∧ i < b := by
  rw [stored, held_perm (perm_insertPiece _ _), held_cons, stop_new hr, or_comm, hr.held i]

theorem total_stored (hr : Fresh stream σ l first b r) : total (stored stream r) = r.2.1 - r.1 + total r.2.2 := by
  rw [stored, total_insertPiece, length_slice (hr.last.trans hr.last_le)]

variable (h : Tracks isn stream maxBuffer σ s out l)

include h

theorem held_step (hr : Fresh stream σ l first b r) {n a : ℕ} (hfit : fit n maxBuffer l first (first + len) = (a, b)) (i : ℕ) :
    Held (stored stream r) i ↔
      i ∈ (σ.step maxBuffer (.add first len)).accepted ∧ (σ.step maxBuffer (.add first len)).read ≤ i := by
  have hread := h.read_le
  rw [held_stored hr, h.held i, Receiver.step, Finset.mem_union, h.mem_fitting hfit]
  constructor
  · rintro (⟨hi, hi'⟩ | ⟨hi, hi'⟩)
    · exact ⟨.inl hi, hi'⟩
    · exact ⟨.inr ⟨(le_max_left _ _).trans hi, hi'⟩, hread.trans ((le_max_right _ _).trans hi)⟩
  · rintro ⟨hi | ⟨hi, hi'⟩, hr⟩
    · exact .inl ⟨hi, hr⟩
    · rcases lt_or_ge i (prefixLen σ.accepted) with hlt | hge
      · exact .inl ⟨mem_of_lt_prefixLen hlt, hr⟩
      · exact .inr ⟨max_le hi hge, hi'⟩

/-- **What follows** goes on to the first byte that is missing now. -/
theorem prefixLen_step (hr : Fresh stream σ l first b r) {n a : ℕ} (hfit : fit n maxBuffer l first (first + len) = (a, b)) :
    prefixLen (σ.step maxBuffer (.add first len)).accepted = follow (prefixLen σ.accepted) (stored stream r) ∧
      prefixLen σ.accepted ≤ follow (prefixLen σ.accepted) (stored stream r) := by
  have hspan : ∀ p ∈ stored stream r, p.2 < prefixLen σ.accepted → stop p ≤ prefixLen σ.accepted := by
    intro p hp hlt
    rcases List.mem_cons.mp ((perm_insertPiece _ _).mem_iff.mp hp) with rfl | hp
    · exact absurd hlt (not_lt.mpr hr.start)
    · exact (h.place (hr.sublist.subset hp)).2.2.2.2 hlt
  obtain ⟨hle, hall, hnot⟩ := follow_spec (apart_stored h hr) hspan
  refine ⟨prefixLen_eq (fun hmem => ?_) fun i hi => ?_, hle⟩
  · exact hnot ((held_step h hr hfit _).mpr ⟨hmem, h.read_le.trans hle⟩)
  · rcases lt_or_ge i (prefixLen σ.accepted) with hlt | hge
    · exact Finset.mem_union_left _ (mem_of_lt_prefixLen hlt)
    · exact ((held_step h hr hfit i).mp (hall i hge hi)).1

theorem bounds_step (hr : Fresh stream σ l first b r) (hcall : (RxCall.add first len).Allowed stream.length maxBuffer σ) {a : ℕ}
    (hfit : fit (σ.nextPos stream.length) maxBuffer l first (first + len) = (a, b)) :
    ∀ i ∈ (σ.step maxBuffer (.add first len)).accepted, i < stream.length ∧ i < prefixLen σ.accepted + 2 ^ 30 ∧
      i < σ.read + Max.max maxBuffer.toNat (2 ^ 30) := by
  obtain ⟨hend, -, -, hlast, -⟩ := hcall
  obtain ⟨hb, -⟩ := h.fit_spec hfit
  have hnext := hr.next
  have hle := hr.last_le
  intro i hi
  rcases Finset.mem_union.mp hi with hi | hi
  · exact ⟨h.inside i hi, h.near i hi, h.window i hi⟩
  · obtain ⟨hi, hi'⟩ := (h.mem_fitting hfit).mp hi
    refine ⟨by omega, by omega, ?_⟩
    -- either the window begins at the byte to be read next, or that byte is missing
    by_cases hread : σ.read = prefixLen σ.accepted
    · omega
    · have hheld := (h.held σ.read).mpr ⟨mem_of_lt_prefixLen (lt_of_le_of_ne h.read_le hread), le_rfl⟩
      cases l with
      | nil => exact absurd hheld not_held_nil
      | cons p rest =>
        obtain ⟨hp, hfirst, -⟩ := apart_cons.mp h.apart
        have hpr := Held.le (List.forall_mem_cons.mpr ⟨le_rfl, fun q hq => (lt_stop hp).le.trans (hfirst q hq)⟩) hheld
        rw [fit, Prod.mk.injEq] at hfit
        omega

end Stored

theorem countFin (fin : Bool) (length : ℕ) {n : ℕ} (hnext : s.nextRxSeq = seqAt isn n) (hgot : s.gotFin = fin)
    (hfin : fin = true → s.finSeq = seqAt isn length ∧ length ≤ n + 2 ^ 30) (hn : n ≤ length) :
    (if s.gotFin && s.nextRxSeq == s.finSeq then { s with nextRxSeq := s.nextRxSeq + 1 } else s) =
      { s with nextRxSeq := seqAt isn (n + if fin = true ∧ n = length then 1 else 0) } := by
  have hcond : (s.gotFin && s.nextRxSeq == s.finSeq) = decide (fin = true ∧ n = length) := by
    cases fin with
    | false => rw [hgot, Bool.false_and, eq_comm, decide_eq_false (fun h => Bool.false_ne_true h.1)]
    | true =>
      obtain ⟨hseq, hnear⟩ := hfin rfl
      rw [hgot, hseq, hnext, Bool.true_and, beq_seqAt (by omega) (by omega), decide_eq_decide]
      exact (and_iff_right rfl).symm
  rw [hcond]
  by_cases hall : fin = true ∧ n = length
  · rw [decide_eq_true hall, if_pos rfl, if_pos hall, hnext, ← seqAt_add]
    rfl
  · rw [decide_eq_false hall, if_neg Bool.false_ne_true, if_neg hall, Nat.add_zero, ← hnext]

section

variable (h : Tracks isn stream maxBuffer σ s out l)

include h

theorem removeOverlap_eq (hmax : maxBuffer.toNat < 2 ^ 31) (hcall : (RxCall.add first len).Allowed stream.length maxBuffer σ)
    {a b : ℕ} (hfit : fit (σ.nextPos stream.length) maxBuffer l first (first + len) = (a, b)) :
    TcpRxBuffer.removeOverlap (seqAt isn a) (seqAt isn b) s.size s.data =
      ⟨seqAt isn (trim a b l).1, seqAt isn (trim a b l).2.1, encode isn (trim a b l).2.2,
        UInt32.ofNat (total (trim a b l).2.2)⟩ := by
  obtain ⟨hext, hnear, hin⟩ := h.near_fit hmax hcall hfit
  rw [h.size, h.data]
  exact removeOverlap_encode h.apart hext hnear hin 0

theorem ge_trim (hmax : maxBuffer.toNat < 2 ^ 31) (hcall : (RxCall.add first len).Allowed stream.length maxBuffer σ) {a b : ℕ}
    (hfit : fit (σ.nextPos stream.length) maxBuffer l first (first + len) = (a, b)) :
    ge (seqAt isn (trim a b l).1) (seqAt isn (trim a b l).2.1) = decide ((trim a b l).2.1 ≤ (trim a b l).1) := by
  obtain ⟨hext, hnear, hin⟩ := h.near_fit hmax hcall hfit
  obtain ⟨hb, ha, hab, -⟩ := h.fit_spec hfit
  obtain ⟨hend, hfirst, hfirst', hlast, hlast', -⟩ := hcall
  have hends : a < b + 2 ^ 31 ∧ b < a + 2 ^ 31 := by
    cases l with
    | nil =>
      obtain ⟨rfl, rfl⟩ := Prod.mk.inj hfit
      omega
    | cons p rest =>
      obtain ⟨rfl, rfl⟩ := Prod.mk.inj hfit
      omega
  exact ge_trim_encode h.apart hext (fun q hq => (hnear q hq).2.2) (fun q hq hqb => (hin q hq hqb).2) hends.1 hends.2

/-- **A segment of which something is new** is stored. -/
theorem add_some (hmax : maxBuffer.toNat < 2 ^ 31 - 1) (hcall : (RxCall.add first len).Allowed stream.length maxBuffer σ)
    {a b : ℕ} (hfit : fit (σ.nextPos stream.length) maxBuffer l first (first + len) = (a, b))
    (hlt : (trim a b l).1 < (trim a b l).2.1) : ∃ s' l',
      s.add (slice stream first (first + len)) (seqAt isn first) = some (true, s') ∧
        Tracks isn stream maxBuffer (σ.step maxBuffer (.add first len)) s' out l' := by
  have hr := h.fresh hcall hfit hlt
  have hbounds := bounds_step h hr hcall hfit
  obtain ⟨hlen, hle⟩ := prefixLen_step h hr hfit
  have hheld := held_step h hr hfit
  have hapart := apart_stored h hr
  have hrem := h.removeOverlap_eq (by omega) hcall hfit
  have hge := h.ge_trim (by omega) hcall hfit
  have hw := h.fitWindow_eq (by omega) hcall
  have hread := h.read_le
  obtain ⟨hend, hfirst, hfirst', hlast, hlast', hlimit⟩ := hcall
  obtain ⟨hb, -⟩ := h.fit_spec hfit
  obtain ⟨-, hpl, -⟩ := h.bounds
  have hnext := hr.next
  have hstart := hr.start
  have hfirst_le := hr.first_le
  have hlast_le := hr.last
  have hlength_le := hr.last_le
  have hplace : ∀ p ∈ stored stream (trim a b l),
      σ.read ≤ p.2 ∧ stop p ≤ σ.read + Max.max maxBuffer.toNat (2 ^ 30) := by
    intro p hp
    have hpos := lt_stop (hapart.nonempty p hp)
    have hfront := (hheld p.2).mp ⟨p, hp, le_rfl, hpos⟩
    have hback := (hheld (stop p - 1)).mp ⟨p, hp, by omega, by omega⟩
    have hwindow := (hbounds _ hback.1).2.2
    exact ⟨hfront.2, by omega⟩
  have hseq : seqAt isn first + packetSize (slice stream first (first + len)) = seqAt isn (first + len) := by
    rw [packetSize, length_slice hend, Nat.add_sub_cancel_left, seqAt_add]
  have hfrag : fragmentOf (slice stream first (first + len))
      (sub (seqAt isn (trim a b l).1) (seqAt isn first)).toUInt32
      (sub (seqAt isn (trim a b l).2.1) (seqAt isn (trim a b l).1)).toUInt32 =
        some (slice stream (trim a b l).1 (trim a b l).2.1) := by
    rw [toUInt32_sub, toUInt32_sub, seqAt_sub_seqAt hfirst_le, seqAt_sub_seqAt hlt.le,
      fragmentOf_eq _ (by omega) (by omega) (by rw [length_slice hend]; omega), slice_slice (by omega)]
    congr 2 <;> omega
  have hnear : ∀ q ∈ (trim a b l).2.2,
      (trim a b l).1 < q.2 + 2 ^ 31 ∧ q.2 < (trim a b l).1 + 2 ^ 31 ∧ (trim a b l).1 ≠ q.2 := by
    intro q hq
    have hq' := h.place (hr.sublist.subset hq)
    have hnew := hplace (slice stream (trim a b l).1 (trim a b l).2.1, (trim a b l).1)
      ((perm_insertPiece _ _).mem_iff.mpr List.mem_cons_self)
    rw [stop_new hr] at hnew
    have hq'' := hr.apart q hq
    refine ⟨by omega, by omega, by omega⟩
  have hmerge : Mergeable (prefixLen σ.accepted)
      (Reported (σ.step maxBuffer (.add first len)).accepted (prefixLen σ.accepted)) :=
    mergeable_reported fun i hi => (hbounds i hi).2.1
  have hold : ∀ x ∈ s.sackList,
      BlockOf isn (Reported (σ.step maxBuffer (.add first len)).accepted (prefixLen σ.accepted)) x := by
    intro x hx
    obtain ⟨c, d, rfl, hc, hcd, hall⟩ := h.sacks x hx
    exact ⟨c, d, rfl, hc, hcd, fun i hi hi' => Finset.mem_union_left _ (hall i hi hi')⟩
  obtain ⟨sacks, hsacks, hsacks'⟩ : ∃ sacks, (if gt (seqAt isn (trim a b l).1) s.nextRxSeq then
      TcpRxBuffer.updateSackList s.nextRxSeq (seqAt isn (trim a b l).1) (seqAt isn (trim a b l).2.1) s.sackList
        else some s.sackList) = some sacks ∧
          ∀ x ∈ sacks, BlockOf isn (Reported (σ.step maxBuffer (.add first len)).accepted (prefixLen σ.accepted)) x := by
    rw [h.next, hnext, gt_seqAt (by omega) (by omega)]
    by_cases hgap : prefixLen σ.accepted < (trim a b l).1
    · rw [decide_eq_true hgap, if_pos rfl]
      refine updateSackList_blockOf hmerge le_rfl hgap ⟨hgap, hlt, fun i hi hi' => ?_⟩ hold
      refine ((hheld i).mp ?_).1
      exact ⟨_, (perm_insertPiece _ _).mem_iff.mpr List.mem_cons_self, hi, by rwa [stop_new hr]⟩
    · rw [decide_eq_false hgap, if_neg Bool.false_ne_true]
      exact ⟨s.sackList, rfl, hold⟩
  have hinsert : insertData (seqAt isn (trim a b l).1) (slice stream (trim a b l).1 (trim a b l).2.1)
      (encode isn (trim a b l).2.2) = encode isn (stored stream (trim a b l)) := insertData_encode isn hnear
  obtain ⟨blocks, hrun, hblocks⟩ := updateNext_encode (s := { s with
      data := encode isn (stored stream (trim a b l))
      sackList := sacks
      size := UInt32.ofNat (total (trim a b l).2.2) + packetSize (slice stream (trim a b l).1 (trim a b l).2.1) })
    hmerge hapart hplace hread le_rfl hpl (by omega) (by rw [h.next, hnext]) fun x hx => by
      obtain ⟨c, d, rfl, hcd⟩ := hsacks' x hx
      exact ⟨c, d, rfl, hcd, hcd.1.trans hcd.2.1⟩
  rw [← hlen] at hrun hblocks hle
  have hfin := countFin σ.fin stream.length (n := prefixLen (σ.step maxBuffer (.add first len)).accepted) (s := { s with
      data := encode isn (stored stream (trim a b l))
      sackList := blocks
      size := UInt32.ofNat (total (trim a b l).2.2) + packetSize (slice stream (trim a b l).1 (trim a b l).2.1)
      nextRxSeq := seqAt isn (prefixLen (σ.step maxBuffer (.add first len)).accepted)
      availBytes := s.availBytes +
        UInt32.ofNat (prefixLen (σ.step maxBuffer (.add first len)).accepted - prefixLen σ.accepted) })
    rfl h.gotFin (fun hfin => ⟨(h.finSeq hfin).1, by have := (h.finSeq hfin).2; omega⟩)
    (not_lt.mp fun hgt => absurd (hbounds _ (mem_of_lt_prefixLen hgt)).1 (lt_irrefl _))
  refine ⟨{ s with
      data := encode isn (stored stream (trim a b l))
      sackList := blocks
      size := UInt32.ofNat (total (trim a b l).2.2) + packetSize (slice stream (trim a b l).1 (trim a b l).2.1)
      nextRxSeq := seqAt isn ((σ.step maxBuffer (.add first len)).nextPos stream.length)
      availBytes := s.availBytes +
        UInt32.ofNat (prefixLen (σ.step maxBuffer (.add first len)).accepted - prefixLen σ.accepted) },
    stored stream (trim a b l), ?_, ?_⟩
  · rw [TcpRxBuffer.add]
    dsimp only
    rw [hseq, hw, hfit]
    dsimp only
    rw [hrem]
    dsimp only
    rw [hge, decide_eq_false (not_le.mpr hlt), if_neg Bool.false_ne_true, hfrag, Option.bind_some, any_encode hnear,
      if_neg Bool.false_ne_true, hsacks, Option.bind_some, hinsert, hrun, Option.map_some, hfin]
    rfl
  · have hsize : packetSize (slice stream (trim a b l).1 (trim a b l).2.1) =
        UInt32.ofNat ((trim a b l).2.1 - (trim a b l).1) := by
      rw [packetSize, length_slice (by omega)]
    refine ⟨rfl, hapart, pieces_stored h hr, hheld, ?_, rfl, ?_, h.gotFin, fun hfin => ?_, h.max, h.out, ?_,
      fun i hi => (hbounds i hi).1, fun i hi => ?_, fun i hi => (hbounds i hi).2.2, fun x hx => ?_⟩
    · rw [hsize, total_stored hr, UInt32.ofNat_add, UInt32.add_comm]
    · show s.availBytes + UInt32.ofNat _ =
        UInt32.ofNat (prefixLen (σ.step maxBuffer (.add first len)).accepted - σ.read)
      rw [h.avail, ← UInt32.ofNat_add]
      congr 1
      omega
    · have hlast := (h.finSeq hfin).2
      exact ⟨(h.finSeq hfin).1, by omega⟩
    · exact hread.trans hle
    · have hnear := (hbounds i hi).2.1
      omega
    · -- a block beyond the byte that was missing, and not up to the one that is missing now, is beyond this one
      obtain ⟨c, d, rfl, ⟨hc, hcd, hall⟩, hbeyond⟩ := hblocks x hx
      refine ⟨c, d, rfl, not_le.mp fun hle => ?_, hcd, hall⟩
      exact prefixLen_notMem _ (hall _ hle hbeyond)

theorem add (hmax : maxBuffer.toNat < 2 ^ 31 - 1) (hcall : (RxCall.add first len).Allowed stream.length maxBuffer σ) : ∃ b s' l',
      s.add (slice stream first (first + len)) (seqAt isn first) = some (b, s') ∧
        Tracks isn stream maxBuffer (σ.step maxBuffer (.add first len)) s' out l' := by
  obtain ⟨a, b, hfit⟩ : ∃ a b, fit (σ.nextPos stream.length) maxBuffer l first (first + len) = (a, b) := ⟨_, _, rfl⟩
  rcases lt_or_ge (trim a b l).1 (trim a b l).2.1 with hlt | hnone
  · obtain ⟨s', l', hs', htracks⟩ := h.add_some hmax hcall hfit hlt
    exact ⟨true, s', l', hs', htracks⟩
  · obtain ⟨hkept, hstep⟩ := h.add_none hcall hfit hnone
    have hrem := h.removeOverlap_eq (by omega) hcall hfit
    have hseq : seqAt isn first + packetSize (slice stream first (first + len)) = seqAt isn (first + len) := by
      rw [packetSize, length_slice hcall.1, Nat.add_sub_cancel_left, seqAt_add]
    refine ⟨false, s, l, ?_, by rwa [hstep]⟩
    rw [TcpRxBuffer.add]
    dsimp only
    rw [hseq, h.fitWindow_eq (by omega) hcall, hfit]
    dsimp only
    rw [hrem]
    dsimp only
    rw [h.ge_trim (by omega) hcall hfit, decide_eq_true hnone, if_pos rfl, hkept, ← h.size, ← h.data]

theorem setFinSequence (hcall : RxCall.setFinSequence.Allowed stream.length maxBuffer σ) :
    Tracks isn stream maxBuffer (σ.step maxBuffer .setFinSequence) (s.setFinSequence (seqAt isn stream.length)) out l := by
  obtain ⟨hfin, hnear⟩ := hcall
  have hnext : σ.nextPos stream.length = prefixLen σ.accepted := by
    rw [Receiver.nextPos, hfin, if_neg fun h => Bool.false_ne_true h.1, Nat.add_zero]
  obtain ⟨hpl, -⟩ := h.bounds
  have hcount := countFin true stream.length (n := prefixLen σ.accepted)
    (s := { s with gotFin := true, finSeq := seqAt isn stream.length }) (h.next.trans (congrArg _ hnext)) rfl
    (fun _ => ⟨rfl, by omega⟩) hpl
  have hstate : s.setFinSequence (seqAt isn stream.length) = { s with
      gotFin := true
      finSeq := seqAt isn stream.length
      nextRxSeq := seqAt isn ((σ.step maxBuffer .setFinSequence).nextPos stream.length) } := by
    rw [TcpRxBuffer.setFinSequence]
    exact hcount
  rw [hstate]
  exact ⟨h.data, h.apart, h.pieces, h.held, h.size, rfl, h.avail, rfl, fun _ => ⟨rfl, by show _ ≤ prefixLen σ.accepted + _; omega⟩,
    h.max, h.out, h.read_le, h.inside, h.near, h.window, h.sacks⟩

theorem extract (hmax : maxBuffer.toNat < 2 ^ 31 - 1) (maxSize : UInt32) :
    ∃ p s' l', s.extract maxSize = some (p, s') ∧
      Tracks isn stream maxBuffer (σ.step maxBuffer (.extract maxSize)) s' (out ++ p) l' := by
  obtain ⟨hlength, hpl, hnext⟩ := h.bounds
  have hread := h.read_le
  obtain ⟨k, hk⟩ : ∃ k, k = min maxSize.toNat (prefixLen σ.accepted - σ.read) := ⟨_, rfl⟩
  have hsize : min maxSize s.availBytes = UInt32.ofNat k := by
    rw [← UInt32.toNat_inj, UInt32.toNat_ofNat_of_lt' (show k < 2 ^ 32 by omega), hk, h.avail]
    have havail : (UInt32.ofNat (prefixLen σ.accepted - σ.read)).toNat = prefixLen σ.accepted - σ.read :=
      UInt32.toNat_ofNat_of_lt' (show _ < 2 ^ 32 by omega)
    show (if maxSize ≤ UInt32.ofNat (prefixLen σ.accepted - σ.read) then maxSize else _).toNat = _
    by_cases hle : maxSize ≤ UInt32.ofNat (prefixLen σ.accepted - σ.read)
    · rw [if_pos hle, min_eq_left (by rwa [UInt32.le_iff_toNat_le, havail] at hle)]
    · rw [UInt32.le_iff_toNat_le, havail] at hle
      rw [if_neg (by rwa [UInt32.le_iff_toNat_le, havail]), havail, min_eq_right (not_le.mp hle).le]
  have hstep : σ.step maxBuffer (.extract maxSize) = { σ with read := σ.read + k } := by rw [Receiver.step, hk]
  have hle : σ.read + k ≤ prefixLen σ.accepted := by
    rw [hk, ← Nat.add_sub_of_le hread]
    exact Nat.add_le_add_left ((min_le_right _ _).trans (by rw [Nat.add_sub_cancel_left])) _
  have hlarge : Max.max maxBuffer.toNat (2 ^ 30) < 2 ^ 31 - 1 := max_lt hmax (by decide)
  have hfar := hpl.trans_lt (Nat.add_lt_add_left hlarge _)
  have hnext₁ : prefixLen σ.accepted ≤ σ.nextPos stream.length := by omega
  have hnext₂ : σ.nextPos stream.length ≤ prefixLen σ.accepted + 1 := by omega
  clear hk hpl hnext
  rw [TcpRxBuffer.extract, hsize, hstep, beq_zero_ofNat (by omega)]
  by_cases hzero : k = 0
  · rw [decide_eq_true hzero, if_pos rfl, hzero, Nat.add_zero]
    exact ⟨[], s, l, rfl, by rwa [List.append_nil]⟩
  · have hheld : ∀ i, σ.read ≤ i → i < σ.read + k → Held l i := fun i hi hi' =>
      (h.held i).mpr ⟨mem_of_lt_prefixLen (by omega), hi⟩
    obtain ⟨p, hp, -⟩ := hheld σ.read le_rfl (by omega)
    have hnonempty : s.data.isEmpty = false := by
      rw [h.data, encode, List.isEmpty_map]
      exact List.isEmpty_eq_false_iff.mpr (List.ne_nil_of_mem hp)
    obtain ⟨l', hrun, hapart, hpieces, hheld'⟩ := extractLoop_encode (c := prefixLen σ.accepted - (σ.read + k))
      h.apart h.pieces (fun q hq => ⟨(h.place hq).1, (h.place hq).2.2.1.trans_lt (Nat.add_lt_add_left (hlarge.trans (by decide)) _)⟩) (by omega) hheld h.next (by omega) (by omega) h.size
      (by rw [h.avail, ← Nat.sub_sub, Nat.add_sub_of_le (Nat.le_sub_of_add_le' hle)]) []
    rw [decide_eq_false hzero, if_neg Bool.false_ne_true, hnonempty, if_neg Bool.false_ne_true, h.data, hrun]
    have hout : out ++ ([] ++ slice stream σ.read (σ.read + k)) = stream.take (σ.read + k) := by
      rw [List.nil_append, h.out, take_append_slice (by omega) (by omega)]
    refine ⟨_, _, l', rfl, rfl, hapart, hpieces, fun i => ?_, rfl, h.next, rfl, h.gotFin, h.finSeq, h.max, hout, ?_, h.inside,
      h.near, fun i hi => ?_, h.sacks⟩
    · rw [hheld' i, h.held i, and_assoc]
      refine and_congr_right fun _ => ⟨fun h => h.2, fun h => ⟨?_, h⟩⟩
      exact (Nat.le_add_right _ _).trans h
    · exact hle
    · exact (h.window i hi).trans_le (Nat.add_le_add_right (Nat.le_add_right _ k) _)

theorem call (hmax : maxBuffer.toNat < 2 ^ 31 - 1) {c : RxCall} (hcall : c.Allowed stream.length maxBuffer σ) :
    ∃ p s' l', s.call isn stream c = some (p, s') ∧
      Tracks isn stream maxBuffer (σ.step maxBuffer c) s' (out ++ p) l' := by
  cases c with
  | add first len =>
    obtain ⟨b, s', l', hs', htracks⟩ := h.add hmax hcall
    exact ⟨[], s', l', by rw [TcpRxBuffer.call, hs', Option.map_some], by rwa [List.append_nil]⟩
  | extract maxSize => exact h.extract hmax maxSize
  | setFinSequence => exact ⟨[], _, l, rfl, by rw [List.append_nil]; exact h.setFinSequence hcall⟩

end

theorem init (isn : SequenceNumber32) (stream : List UInt8) (maxBuffer : UInt32) :
    Tracks isn stream maxBuffer {} { nextRxSeq := isn, maxBuffer := maxBuffer } [] [] := by
  have hzero : prefixLen ∅ = 0 := prefixLen_eq (Finset.notMem_empty 0) fun i hi => absurd hi (Nat.not_lt_zero i)
  have hnext : isn = seqAt isn (Receiver.nextPos {} stream.length) := by
    rw [Receiver.nextPos, hzero, if_neg fun h => Bool.false_ne_true h.1, seqAt]
    exact (UInt32.add_zero isn).symm
  have hnone : ∀ {P : ℕ → Prop}, ∀ i ∈ (∅ : Finset ℕ), P i := fun i hi => absurd hi (Finset.notMem_empty i)
  refine ⟨rfl, ⟨List.Pairwise.nil, List.forall_mem_nil _⟩, List.forall_mem_nil _,
    fun i => iff_of_false not_held_nil fun h => absurd h.1 (Finset.notMem_empty i), rfl, hnext, ?_, rfl,
    fun h => absurd h Bool.false_ne_true, rfl, rfl, Nat.zero_le _, hnone, hnone, hnone,
    List.forall_mem_nil _⟩
  rw [Nat.sub_zero, hzero]
  rfl

theorem delivers (h : Tracks isn stream maxBuffer σ s out l) (hmax : maxBuffer.toNat < 2 ^ 31 - 1) :
    Delivers isn stream σ s out := by
  obtain ⟨-, hpl, -⟩ := h.bounds
  refine ⟨h.out, ⟨l, h.data, h.apart, h.pieces, h.held, ?_⟩, ?_, h.next⟩
  · have htotal := total_le h.apart (fun p hp => (h.place hp).1) (fun p hp => (h.place hp).2.2.1) (Nat.le_add_right _ _)
    rw [h.size, UInt32.toNat_ofNat_of_lt' (show _ < 2 ^ 32 by omega)]
  · rw [h.avail, UInt32.toNat_ofNat_of_lt' (show _ < 2 ^ 32 by omega)]

theorem runFrom (h : Tracks isn stream maxBuffer σ s out l) (hmax : maxBuffer.toNat < 2 ^ 31 - 1) {calls : List RxCall}
    (hcalls : RxCall.AllowedFrom stream.length maxBuffer σ calls) : ∃ out' s' l',
      TcpRxBuffer.runFrom isn stream (out, s) calls = some (out', s') ∧
        Tracks isn stream maxBuffer (calls.foldl (Receiver.step maxBuffer) σ) s' out' l' := by
  induction calls generalizing σ s out l with
  | nil => exact ⟨out, s, l, rfl, h⟩
  | cons c rest ih =>
    obtain ⟨p, s', l', hs', htracks⟩ := h.call hmax hcalls.1
    obtain ⟨out', s'', l'', hrun, htracks'⟩ := ih htracks hcalls.2
    exact ⟨out', s'', l'', by rw [TcpRxBuffer.runFrom, hs', Option.bind_some, hrun], htracks'⟩

end Tracks

/-- **The stream is delivered** in every run of calls that can be made: no assertion fails, what was extracted is a prefix
of the stream, and the buffer has what the receiver has accepted beyond. -/
theorem run_delivers (isn : SequenceNumber32) (stream : List UInt8) (maxBuffer : UInt32)
    (hmax : maxBuffer.toNat < 2 ^ 31 - 1) (calls : List RxCall)
    (hcalls : RxCall.AllowedFrom stream.length maxBuffer {} calls) :
    ∃ out s, TcpRxBuffer.run isn stream maxBuffer calls = some (out, s) ∧
      Delivers isn stream (calls.foldl (Receiver.step maxBuffer) {}) s out ∧ out <+: stream := by
  obtain ⟨out, s, l, hrun, h⟩ := (Tracks.init isn stream maxBuffer).runFrom hmax hcalls
  exact ⟨out, s, hrun, h.delivers hmax, h.out ▸ List.take_prefix _ _⟩

/-- The FIN, and then all bytes, with sequence numbers that wrap. -/
theorem run_delivers_wrap :
    ∃ out s, TcpRxBuffer.run 0xfffffffe [1, 2, 3, 4] 32768 [.setFinSequence, .add 0 4, .extract 3] = some (out, s) ∧
      Delivers 0xfffffffe [1, 2, 3, 4]
        ([RxCall.setFinSequence, .add 0 4, .extract 3].foldl (Receiver.step 32768) {}) s out ∧ out <+: [1, 2, 3, 4] := by
  have hzero : prefixLen ∅ = 0 := prefixLen_eq (Finset.notMem_empty 0) fun i hi => absurd hi (Nat.not_lt_zero i)
  have hnext : Receiver.nextPos { fin := true } 4 = 0 := by
    rw [Receiver.nextPos, hzero]
    rfl
  have hlimit : Receiver.limit { fin := true } 32768 = ⊤ := by
    rw [Receiver.limit, Finset.filter_empty, Finset.min_empty, top_add]
  refine run_delivers 0xfffffffe [1, 2, 3, 4] 32768 (by decide) _ ⟨⟨rfl, ?_⟩, ⟨?_, ?_, ?_, ?_, ?_, ?_⟩, trivial, trivial⟩
  · show 4 ≤ _ + 2 ^ 30
    omega
  · exact le_rfl
  · exact Nat.zero_le _
  · show Receiver.nextPos { fin := true } 4 ≤ 0 + 2 ^ 30
    omega
  · show 4 ≤ Receiver.nextPos { fin := true } 4 + 2 ^ 30
    omega
  · show Receiver.nextPos { fin := true } 4 ≤ 4 + 2 ^ 30
    omega
  · intro e he
    exact absurd (hlimit.symm.trans he) (WithTop.top_ne_natCast e)

/-- Bytes beyond the window are not kept. With a window of nearly half of the circle, a segment that was delivered is taken
for one beyond the window, and an assertion fails. -/
theorem not_run_delivers :
    (TcpRxBuffer.run 0 (List.replicate 8 0) 4 [.add 0 4, .add 4 4]).map (fun r => r.2.nextRxSeq) ≠ some (seqAt 0 8) ∧
      TcpRxBuffer.run 0 (List.replicate 10 0) 0x7ffffffc [.add 0 10, .extract 9, .add 0 1] = none := by
  constructor
  · decide
  · have h : (TcpRxBuffer.run 0 (List.replicate 10 0) 0x7ffffffc [.add 0 10, .extract 9, .add 0 1]).isNone = true := by
      decide
    exact Option.isNone_iff_eq_none.mp h

end Ns3Ndn.Internet
