import Ns3Ndn.Lib.Run
import Ns3Ndn.Network.Buffer

/-!
# Buffers are values

Buffers that share a block do not see each other's changes: each has the bytes that its own calls make of its own list.

A block belongs to all its buffers, and the dirty area covers the bytes of each. With `z` zeros in the largest zero area,
no bytes of a block are from `dirtyEnd - z` on. A buffer that ends at the dirty end has itself `z` zeros, and grows into bytes
that nobody has.

* `Memory.Inv`: each instance has its list, for the largest zero areas `z` of the blocks;
* **`run_values`**: along every run.
-/

set_option linter.unusedSectionVars false

namespace Ns3Ndn.Network

open Function PoolLib SliceLib

/-! ## Lists -/

/-- The bytes of each instance. -/
abbrev Contents (ι : Type) := ι → Option (List UInt8)

def fragment (l : List UInt8) (start length : ℕ) : List UInt8 :=
  if start + length ≤ l.length then (l.drop start).take length else []

namespace Contents

variable {ι : Type} [DecidableEq ι]

/-- A call, on the list of its instance. -/
def step (c : Contents ι) : BufferOp ι → Contents ι
  | .construct i zeroSize => if (c i).isSome then c else update c i (some (List.replicate zeroSize 0))
  | .copy i o => if (c i).isSome then c else update c i (c o)
  | .assign i o => if (c i).isSome ∧ (c o).isSome then update c i (c o) else c
  | .destroy i => update c i none
  | .addAtStart i bytes _ => update c i ((c i).map (bytes ++ ·))
  | .addAtEnd i bytes _ => update c i ((c i).map (· ++ bytes))
  | .removeAtStart i start => update c i ((c i).map (·.drop start))
  | .removeAtEnd i e => update c i ((c i).map fun l => l.take (l.length - e))
  | .createFragment i o start length => if (c i).isSome then c else update c i ((c o).map fun l => fragment l start length)

def run (ops : List (BufferOp ι)) : Contents ι := ops.foldl step fun _ => none

/-- The sizes are below `2 ^ 31`. -/
def Small (c : Contents ι) : Prop := ∀ i l, c i = some l → l.length < 2 ^ 31

end Contents

theorem Contents.small_of_all {ι : Type} {c : Contents ι} (h : ∀ i, (c i).all (fun l => l.length < 2 ^ 31) = true) : c.Small := by
  intro i l hl
  have hi := h i
  rw [hl] at hi
  exact of_decide_eq_true hi

/-- The part that is asked for is below `2 ^ 31`. -/
def BufferOp.Small {ι : Type} : BufferOp ι → Prop
  | .createFragment _ _ start length => start < 2 ^ 31 ∧ length < 2 ^ 31
  | _ => True

namespace Memory

variable {ι : Type} [DecidableEq ι] [Fintype ι]

/-- The block of each instance. -/
def users (s : Memory ι) (i : ι) : Option ℕ := (s.buffers i).map Buffer.data

/-- **The instances are there with their lists**, and are as the code checks them. -/
structure Values (s : Memory ι) (c : Contents ι) : Prop where
  isSome : ∀ i, (s.buffers i).isSome = (c i).isSome
  value : ∀ i b l, s.buffers i = some b → c i = some l → ∃ d, s.pool.val b.data = some d ∧
    b.checkInternalState (s.pool.count b.data) d = true ∧ b.getSize = l.length ∧
    b.copyData d.bytes b.getSize = some l ∧ Iterator.read d.bytes b.begin b.getSize = some l

/-- The counts are right, and each buffer has its list, with at most `z` zeros. -/
structure Inv (s : Memory ι) (z : ℕ → ℕ) (c : Contents ι) : Prop where
  pool : s.pool.Inv (uses s.users)
  isSome : ∀ i, (s.buffers i).isSome = (c i).isSome
  ok : ∀ i b, s.buffers i = some b → ∃ d, s.pool.val b.data = some d ∧ b.Ok d (z b.data) ∧ c i = some (b.content d.bytes)

variable {s s' : Memory ι} {z z' : ℕ → ℕ} {c : Contents ι} {i : ι} {b : Buffer} {d : Data}

theorem Inv.values (h : s.Inv z c) : s.Values c where
  isSome := h.isSome
  value i b l hb hl := by
    obtain ⟨d, hd, hok, hc⟩ := h.ok i b hb
    rw [hl, Option.some_inj] at hc
    have hcount : 0 < s.pool.count b.data := by
      rw [h.pool.count]
      exact uses_pos (i := i) (by rw [users, hb, Option.map_some])
    refine ⟨d, hd, hok.checkInternalState hcount, ?_, ?_, ?_⟩
    · rw [hc, hok.length_content]
    · rw [hok.copyData, hc, ← hok.length_content, List.take_length]
    · rw [hok.read _ le_rfl, hc, ← hok.length_content, List.take_length]

theorem inv_init : Inv ({} : Memory ι) (fun _ => 0) fun _ => none where
  pool := by
    have huses : uses ({} : Memory ι).users = fun _ => 0 := by
      funext a
      simp [uses, users]
    rw [huses]
    exact ⟨fun _ => rfl, fun _ h => absurd rfl h, by simp, List.nodup_nil, fun _ _ => rfl⟩
  isSome _ := rfl
  ok _ _ h := by simp at h

theorem users_update {v : Option Buffer} (hbuf : s'.buffers = update s.buffers i v) :
    s'.users = update s.users i (v.map Buffer.data) := by
  funext j
  rw [users, hbuf]
  by_cases hj : j = i
  · rw [hj, update_self, update_self]
  · rw [update_of_ne hj, update_of_ne hj, users]

theorem uses_ne_zero (hb : s.buffers i = some b) : uses s.users b.data ≠ 0 :=
  (uses_pos (i := i) (by rw [users, hb, Option.map_some])).ne'

/-- **One instance changes.** The blocks of the others still have their bytes. -/
theorem Inv.change (h : s.Inv z c) {v : Option Buffer} {l : Option (List UInt8)}
    (hbuf : s'.buffers = update s.buffers i v) (hpool : s'.pool.Inv (uses s'.users))
    (hothers : ∀ j b d, j ≠ i → s.buffers j = some b → s.pool.val b.data = some d → b.Ok d (z b.data) →
      ∃ d', s'.pool.val b.data = some d' ∧ b.Ok d' (z' b.data) ∧ b.content d'.bytes = b.content d.bytes)
    (hsome : v.isSome = l.isSome)
    (hself : ∀ b, v = some b → ∃ d, s'.pool.val b.data = some d ∧ b.Ok d (z' b.data) ∧ l = some (b.content d.bytes)) :
    s'.Inv z' (update c i l) where
  pool := hpool
  isSome j := by
    rw [hbuf]
    by_cases hj : j = i
    · rw [hj, update_self, update_self, hsome]
    · rw [update_of_ne hj, update_of_ne hj, h.isSome]
  ok j b hb := by
    rw [hbuf] at hb
    by_cases hj : j = i
    · rw [hj, update_self] at hb
      obtain ⟨d, hd, hok, hl⟩ := hself b hb
      exact ⟨d, hd, hok, by rw [hj, update_self, hl]⟩
    · rw [update_of_ne hj] at hb
      obtain ⟨d, hd, hok, hc⟩ := h.ok j b hb
      obtain ⟨d', hd', hok', hsame⟩ := hothers j b d hj hb hd hok
      exact ⟨d', hd', hok', by rw [update_of_ne hj, hc, hsame]⟩

variable {b' : Buffer}

theorem Inv.setBuffer (h : s.Inv z c) (hb : s.buffers i = some b) (hd : s.pool.val b.data = some d)
    (hdata : b'.data = b.data) (hok : b'.Ok d (z b.data)) :
    (s.setBuffer i b').Inv z (update c i (some (b'.content d.bytes))) := by
  have hbuf : (s.setBuffer i b').buffers = update s.buffers i (some b') := rfl
  refine h.change hbuf ?_ (fun j x d _ _ hd hok => ⟨d, hd, hok, rfl⟩) rfl ?_
  · have hsame : update s.users i (some b.data) = s.users := by
      rw [update_eq_self_iff, users, hb, Option.map_some]
    rw [users_update hbuf, Option.map_some, hdata, hsame]
    exact h.pool
  · rintro x ⟨⟩
    exact ⟨d, by rw [hdata]; exact hd, by rw [hdata]; exact hok, rfl⟩

theorem Inv.removeAtStart (h : s.Inv z c) (hb : s.buffers i = some b) (n : ℕ) :
    (s.setBuffer i (b.removeAtStart n)).Inv z (update c i ((c i).map (·.drop n))) := by
  obtain ⟨d, hd, hok, hc⟩ := h.ok i b hb
  obtain ⟨hok', hcontent⟩ := hok.removeAtStart n
  rw [hc, Option.map_some, ← hcontent]
  exact h.setBuffer hb hd (b.data_removeAtStart n) hok'

theorem Inv.removeAtEnd (h : s.Inv z c) (hb : s.buffers i = some b) (n : ℕ) :
    (s.setBuffer i (b.removeAtEnd n)).Inv z (update c i ((c i).map fun l => l.take (l.length - n))) := by
  obtain ⟨d, hd, hok, hc⟩ := h.ok i b hb
  obtain ⟨hok', hcontent⟩ := hok.removeAtEnd n
  rw [hc, Option.map_some, hok.length_content, ← hcontent]
  exact h.setBuffer hb hd (b.data_removeAtEnd n) hok'

/-! ## Blocks that change hands -/

theorem release_eq (s : Memory ι) {n : ℕ → ℕ} {a : ℕ} (h : s.pool.Inv n) (ha : n a ≠ 0) :
    ∃ s', s.release a = some s' ∧ s'.buffers = s.buffers ∧ s'.pool.Inv (update n a (n a - 1)) ∧
      ∀ x, update n a (n a - 1) x ≠ 0 → s'.pool.val x = s.pool.val x := by
  obtain ⟨d, hd⟩ := Option.ne_none_iff_exists'.mp (h.live a ha)
  rw [release, hd, Option.map_some]
  split_ifs
  · exact ⟨_, rfl, rfl, h.release ha _⟩
  · exact ⟨_, rfl, rfl, h.release ha _⟩

theorem uses_others {j : ι} {x : Buffer} (hj : j ≠ i) (hx : s.buffers j = some x) (v : Option ℕ) :
    uses (update s.users i v) x.data ≠ 0 :=
  (uses_pos (i := j) (by rw [update_of_ne hj, users, hx, Option.map_some])).ne'

theorem Inv.copy (h : s.Inv z c) (hi : s.buffers i = none) {o : ι} (hb : s.buffers o = some b) :
    (s.copy i b).Inv z (update c i (c o)) := by
  obtain ⟨d, hd, hok, hc⟩ := h.ok o b hb
  have hnone : s.users i = none := by rw [users, hi, Option.map_none]
  have hbuf : (s.copy i b).buffers = update s.buffers i (some { b with maxZeroAreaStart := b.zeroAreaStart }) := rfl
  refine h.change hbuf ?_ (fun j x d _ _ hd hok => ⟨d, hd, hok, rfl⟩) (by rw [hc]; rfl) ?_
  · rw [users_update hbuf, Option.map_some, uses_set_some hnone]
    exact h.pool.share (uses_ne_zero hb)
  · rintro x ⟨⟩
    exact ⟨d, hd, ⟨hok.start_le, hok.zero_le, hok.end_le, hok.dirtyStart_le, hok.zeros_le, hok.dirtyEnd_le, hok.size_le⟩, hc⟩

theorem Inv.destroy (h : s.Inv z c) (hb : s.buffers i = some b) :
    ∃ s', s.destroy i b = some s' ∧ s'.Inv z (update c i none) := by
  have husers : s.users i = some b.data := by rw [users, hb, Option.map_some]
  obtain ⟨s', hs', hbuf, hpool, hval⟩ := release_eq
    { s with recommendedStart := max s.recommendedStart b.maxZeroAreaStart, buffers := update s.buffers i none }
    h.pool (uses_ne_zero hb)
  rw [← uses_set_none husers] at hpool hval
  change s'.buffers = update s.buffers i none at hbuf
  refine ⟨s', hs', h.change hbuf ?_ (fun j x d hj hx hd hok => ?_) rfl (fun _ hx => by cases hx)⟩
  · rw [users_update hbuf]
    exact hpool
  · exact ⟨d, (hval x.data (uses_others hj hx _)).trans hd, hok, rfl⟩

theorem Inv.assign (h : s.Inv z c) (hb : s.buffers i = some b) {o : ι} {x : Buffer} (hx : s.buffers o = some x) :
    ∃ s', s.assign i b x = some s' ∧ s'.Inv z (update c i (c o)) := by
  obtain ⟨d, hd, hok, hc⟩ := h.ok o x hx
  have husers : s.users i = some b.data := by rw [users, hb, Option.map_some]
  rw [Memory.assign]
  split_ifs with hne
  · have ho : o ≠ i := by
      rintro rfl
      rw [hb, Option.some_inj] at hx
      exact hne (hx ▸ rfl)
    obtain ⟨s₁, hs₁, hbuf, hpool, hval⟩ := release_eq s h.pool (uses_ne_zero hb)
    rw [← uses_set_none husers] at hpool hval
    rw [hs₁]
    refine ⟨_, rfl, h.change (v := some x) (by rw [← hbuf]; rfl) ?_ (fun j y d hj hy hd hok => ?_) (by rw [hc]; rfl) ?_⟩
    · have hshare := hpool.share (uses_others ho hx none)
      rw [← uses_set_some (update_self i none s.users), update_idem] at hshare
      rw [users_update (s := s) (i := i) (v := some x) (by rw [← hbuf]; rfl)]
      exact hshare
    · exact ⟨d, (hval y.data (uses_others hj hy _)).trans hd, hok, rfl⟩
    · rintro y ⟨⟩
      exact ⟨d, (hval x.data (uses_others ho hx _)).trans hd, hok, hc⟩
  · rw [not_not] at hne
    refine ⟨_, rfl, h.change (v := some x) rfl ?_ (fun j y d hj hy hd hok => ⟨d, hd, hok, rfl⟩) (by rw [hc]; rfl) ?_⟩
    · rw [users_update (s := s) (i := i) (v := some x) rfl, Option.map_some, ← hne, ← husers, update_eq_self]
      exact h.pool
    · rintro y ⟨⟩
      exact ⟨d, hd, hok, hc⟩

variable (junk : ℕ → ℕ → UInt8)

/-- **A new block**: nobody has it, and it is large enough. -/
theorem create_eq {p : Pool Data} {n : ℕ → ℕ} (h : p.Inv n) (size : ℕ) :
    n (create junk p size).2 = 0 ∧ (create junk p size).1.Inv (update n (create junk p size).2 1) ∧
      (∃ w, (create junk p size).1.val (create junk p size).2 = some w ∧ size ≤ w.bytes.length) ∧
      ∀ a, n a ≠ 0 → (create junk p size).1.val a = p.val a := by
  obtain ⟨hfree, hpool, ⟨w, hw, hfits⟩, hval⟩ :=
    h.create (fun d => d.size ≥ size) fun a => { bytes := (List.range (max size 1)).map (junk a) }
  refine ⟨hfree, hpool, ⟨w, hw, ?_⟩, hval⟩
  rcases hfits with hfits | ⟨a, rfl⟩
  · exact of_decide_eq_true hfits
  · rw [List.length_map, List.length_range]
    exact le_max_left _ _

theorem Inv.initBuffer (h : s.Inv z c) (hi : s.buffers i = none) (zeroSize : ℕ) :
    ∃ s' z', s.initBuffer junk i zeroSize = some s' ∧ s'.Inv z' (update c i (some (List.replicate zeroSize 0))) := by
  obtain ⟨hfree, hpool, ⟨w, hw, -⟩, hval⟩ := create_eq junk h.pool 0
  have hnone : s.users i = none := by rw [users, hi, Option.map_none]
  rw [Memory.initBuffer]
  dsimp only
  rw [hw, Option.map_some]
  generalize hp : (create junk s.pool 0).1 = p at *
  generalize ha : (create junk s.pool 0).2 = a at *
  refine ⟨_, update z a zeroSize, rfl, h.change (i := i) rfl ?_ (fun j x d hj hx hd hok => ?_) rfl ?_⟩
  · rw [users_update (s := s) (i := i) rfl, Option.map_some, uses_set_some hnone, hfree]
    exact hpool.setVal (by rw [update_self]; exact one_ne_zero) _
  · have hne : x.data ≠ a := by
      rintro rfl
      exact uses_ne_zero hx hfree
    refine ⟨d, ?_, ?_, rfl⟩
    · change update p.val a _ x.data = some d
      rw [update_of_ne hne, hval _ (uses_ne_zero hx), hd]
    · rw [update_of_ne hne]
      exact hok
  · rintro x ⟨⟩
    refine ⟨_, update_self _ _ _, ?_, ?_⟩
    · dsimp only
      rw [update_self]
      refine ⟨le_rfl, ?_, le_rfl, le_rfl, ?_, ?_, ?_⟩ <;> dsimp only [Buffer.getInternalEnd, Data.size] <;> omega
    · dsimp only [Buffer.content, Buffer.getInternalEnd]
      rw [slice_self, slice_eq_nil (by omega), List.nil_append, List.append_nil, Nat.add_sub_cancel_left]

/-- **An instance moves to a new block.** -/
theorem Inv.move (h : s.Inv z c) (hb : s.buffers i = some b) (size : ℕ) {w : Data} {zeros : ℕ}
    (hdata : b'.data = (create junk s.pool size).2) (hok : b'.Ok w zeros) :
    ∃ s', ({ s with pool := (create junk s.pool size).1.setVal (create junk s.pool size).2 w }.setBuffer i b').release b.data =
        some s' ∧ s'.Inv (update z b'.data zeros) (update c i (some (b'.content w.bytes))) ∧
      s'.buffers = update s.buffers i (some b') ∧ s'.pool.val b'.data = some w ∧
      ∀ j x, j ≠ i → s'.buffers j = some x → x.data ≠ b'.data := by
  obtain ⟨hfree, hpool, -, hval⟩ := create_eq junk h.pool size
  rw [← hdata] at *
  have husers : s.users i = some b.data := by rw [users, hb, Option.map_some]
  have hne : b.data ≠ b'.data := fun heq => uses_ne_zero hb (heq ▸ hfree)
  have hcreated := hpool.setVal (by rw [update_self]; exact one_ne_zero) w
  obtain ⟨s', hs', hbuf, hpool', hval'⟩ := release_eq
    ({ s with pool := (create junk s.pool size).1.setVal b'.data w }.setBuffer i b') hcreated
    (a := b.data) (by rw [update_of_ne hne]; exact uses_ne_zero hb)
  have hcounts : update (update (uses s.users) b'.data 1) b.data (update (uses s.users) b'.data 1 b.data - 1) =
      uses (update s.users i (some b'.data)) := by
    have hnew := uses_set_some (a := b'.data) (update_self i none s.users)
    rw [uses_set_none husers, update_idem, update_of_ne hne.symm, hfree] at hnew
    rw [hnew, update_of_ne hne, update_comm hne]
  rw [hcounts] at hpool' hval'
  change s'.buffers = update s.buffers i (some b') at hbuf
  have hothers : ∀ j x, j ≠ i → s.buffers j = some x → x.data ≠ b'.data := by
    rintro j x - hx heq
    exact uses_ne_zero hx (heq ▸ hfree)
  have hself : s'.pool.val b'.data = some w := by
    rw [hval' _ (uses_pos (i := i) (update_self _ _ _)).ne']
    exact update_self _ _ _
  refine ⟨s', hs', h.change hbuf ?_ (fun j x d hj hx hd hok => ?_) rfl ?_, hbuf, hself, fun j x hj hx => ?_⟩
  · rw [users_update hbuf]
    exact hpool'
  · refine ⟨d, ?_, ?_, rfl⟩
    · rw [hval' _ (uses_others hj hx _)]
      change update (create junk s.pool size).1.val b'.data (some w) x.data = some d
      rw [update_of_ne (hothers j x hj hx), hval _ (uses_ne_zero hx), hd]
    · rw [update_of_ne (hothers j x hj hx)]
      exact hok
  · rintro x ⟨⟩
    exact ⟨w, hself, by rw [update_self]; exact hok, rfl⟩
  · rw [hbuf, update_of_ne hj] at hx
    exact hothers j x hj hx

/-! ## Growth -/

/-- **A block changes in place**, for all its users. -/
theorem Inv.inPlace (h : s.Inv z c) (hb : s.buffers i = some b) (hd : s.pool.val b.data = some d) (d' : Data)
    {zeros : ℕ} (hpool : s'.pool = s.pool.setVal b.data d') (hbuf : s'.buffers = update s.buffers i (some b'))
    (hdata : b'.data = b.data) (hok : b'.Ok d' zeros)
    (hothers : ∀ j x, j ≠ i → s.buffers j = some x → x.data = b.data → x.Ok d (z b.data) →
      x.Ok d' zeros ∧ x.content d'.bytes = x.content d.bytes) :
    s'.Inv (update z b.data zeros) (update c i (some (b'.content d'.bytes))) := by
  have husers : s.users i = some b.data := by rw [users, hb, Option.map_some]
  refine h.change hbuf ?_ (fun j x dx hj hx hdx hokx => ?_) rfl ?_
  · rw [users_update hbuf, Option.map_some, hdata, update_eq_self_iff.mpr husers.symm, hpool]
    exact h.pool.setVal (uses_ne_zero hb) _
  · rw [hpool]
    change ∃ d'', update s.pool.val b.data _ x.data = some d'' ∧ _
    by_cases hsame : x.data = b.data
    · rw [hsame] at hdx hokx
      rw [hd, Option.some_inj] at hdx
      rw [← hdx] at hokx ⊢
      rw [hsame, update_self, update_self]
      exact ⟨d', rfl, hothers j x hj hx hsame hokx⟩
    · rw [update_of_ne hsame, update_of_ne hsame]
      exact ⟨dx, hdx, hokx, rfl⟩
  · rintro x ⟨⟩
    rw [hdata, hpool, update_self]
    exact ⟨d', update_self _ _ _, hok, rfl⟩

theorem Inv.ok_other (h : s.Inv z c) (hd : s.pool.val b.data = some d) {j : ι} {x : Buffer} (hx : s.buffers j = some x)
    (hdata : x.data = b.data) : x.Ok d (z b.data) := by
  obtain ⟨dx, hdx, hok, -⟩ := h.ok j x hx
  rw [hdata] at hdx hok
  rw [hd, Option.some_inj] at hdx
  rwa [hdx]

theorem Inv.eq_of_count_le (h : s.Inv z c) (hb : s.buffers i = some b) (hcount : s.pool.count b.data ≤ 1) {j : ι} {x : Buffer}
    (hx : s.buffers j = some x) (hdata : x.data = b.data) : j = i := by
  rw [h.pool.count] at hcount
  refine eq_of_uses_eq_one (le_antisymm hcount (Nat.one_le_iff_ne_zero.mpr (uses_ne_zero hb))) (a := b.data) ?_ ?_
  · rw [users, hx, Option.map_some, hdata]
  · rw [users, hb, Option.map_some]

/-- The instance has `n` more bytes at its start, and no other instance has bytes there. -/
def NewAtStart (s : Memory ι) (c : Contents ι) (i : ι) (l : List UInt8) (n : ℕ) : Prop :=
  ∃ z b d pad, s.Inv z (update c i (some (pad ++ l))) ∧ pad.length = n ∧ s.buffers i = some b ∧ s.pool.val b.data = some d ∧
    b.start + n ≤ b.zeroAreaStart ∧ ∀ j x, j ≠ i → s.buffers j = some x → x.data = b.data → b.start + n ≤ x.start

/-- The instance has `n` more bytes at its end, and no other instance has bytes there. -/
def NewAtEnd (s : Memory ι) (c : Contents ι) (i : ι) (l : List UInt8) (n : ℕ) : Prop :=
  ∃ z b d pad, s.Inv z (update c i (some (l ++ pad))) ∧ pad.length = n ∧ s.buffers i = some b ∧ s.pool.val b.data = some d ∧
    b.zeroAreaEnd + n ≤ b.end_ ∧
    ∀ j x, j ≠ i → s.buffers j = some x → x.data = b.data → x.getInternalEnd + n ≤ b.getInternalEnd

theorem Inv.newAtStart_inPlace (h : s.Inv z c) (hb : s.buffers i = some b) (hd : s.pool.val b.data = some d) {n : ℕ}
    (hn : n ≤ b.start) (hown : s.pool.count b.data = 1 ∨ b.start = d.dirtyStart)
    (hb' : ({ b with start := b.start - n } : Buffer).noteZeroArea = b') :
    NewAtStart ({ s with pool := s.pool.setVal b.data { d with dirtyStart := b.start - n } }.setBuffer i b') c i
      (b.content d.bytes) n := by
  have hok := h.ok_other hd hb rfl
  have h₁ := hok.start_le
  have hend := hok.internalEnd
  have h₄ := hok.size_le
  have hstart : b'.start = b.start - n := by rw [← hb']; rfl
  have hzero : b'.zeroAreaStart = b.zeroAreaStart := by rw [← hb']; rfl
  have hdata : b'.data = b.data := by rw [← hb']; rfl
  have hothers : ∀ j x, j ≠ i → s.buffers j = some x → x.data = b.data → b.start ≤ x.start := by
    intro j x hj hx hdata
    rcases hown with hone | hdirty
    · exact absurd (h.eq_of_count_le hb hone.le hx hdata) hj
    · rw [hdirty]
      exact (h.ok_other hd hx hdata).dirtyStart_le
  have hgrown : b'.content d.bytes = slice d.bytes (b.start - n) b.start ++ b.content d.bytes := by
    rw [Buffer.content_of_start_le (n := b.start) (by omega) (by omega) (by omega), hstart, ← hb']
    rfl
  refine ⟨update z b.data (z b.data), b', { d with dirtyStart := b.start - n }, slice d.bytes (b.start - n) b.start,
    ?_, ?_, update_self _ _ _, ?_, by omega, fun j x hj hx hsame => ?_⟩
  · rw [← hgrown]
    refine h.inPlace hb hd { d with dirtyStart := b.start - n } rfl rfl hdata ?_ fun j x hj hx hdata hokx => ⟨?_, rfl⟩
    · rw [← hb']
      refine ⟨?_, hok.zero_le, hok.end_le, le_rfl, hok.zeros_le, hok.dirtyEnd_le, h₄⟩
      dsimp only [Buffer.noteZeroArea]
      omega
    · have hle := hothers j x hj hx hdata
      refine ⟨hokx.start_le, hokx.zero_le, hokx.end_le, ?_, hokx.zeros_le, hokx.dirtyEnd_le, hokx.size_le⟩
      dsimp only
      omega
  · rw [length_slice (by omega)]
    omega
  · rw [hdata]
    exact update_self _ _ _
  · change update s.buffers i _ j = some x at hx
    rw [update_of_ne hj] at hx
    have hle := hothers j x hj hx (hsame.trans hdata)
    omega

/-- **`AddAtStart`** adds bytes before the others, where no other instance has bytes. -/
theorem Inv.addAtStart (h : s.Inv z c) (hb : s.buffers i = some b) (hd : s.pool.val b.data = some d) (n : ℕ) :
    ∃ s', s.addAtStart junk i b n = some s' ∧ s'.NewAtStart c i (b.content d.bytes) n := by
  have hok := h.ok_other hd hb rfl
  have h₁ := hok.start_le
  have h₂ := hok.zero_le
  have h₃ := hok.end_le
  have h₄ := hok.size_le
  have hend := hok.internalEnd
  have hcount : s.pool.count b.data ≠ 0 := by
    rw [h.pool.count]
    exact uses_ne_zero hb
  rw [Memory.addAtStart, hd, Option.bind_some]
  dsimp only
  split_ifs with hfit hassert
  · rw [Bool.and_eq_true, decide_eq_true_iff] at hfit
    exact ⟨_, rfl, h.newAtStart_inPlace hb hd hfit.1 hassert rfl⟩
  · -- a block that is not dirty has one user, or begins with this buffer
    have hdirty := hok.dirtyStart_le
    simp only [Bool.and_eq_true, Bool.not_eq_true', Bool.and_eq_false_iff, decide_eq_true_iff, decide_eq_false_iff_not] at hfit
    omega
  · rw [hend.2.2]
    obtain ⟨-, -, ⟨w, hw, hlen⟩, -⟩ := create_eq junk h.pool (b.getInternalEnd - b.start + n)
    have hcopied : (slice d.bytes b.start b.getInternalEnd).length = b.getInternalEnd - b.start := length_slice h₄
    rw [hw, Option.bind_some, Buffer.load_eq (by omega), Option.bind_some, Nat.add_sub_cancel' (h₁.trans hend.1),
      Iterator.store_eq (by omega), Option.bind_some]
    generalize hbytes : overwrite w.bytes n (slice d.bytes b.start b.getInternalEnd) = bytes
    have hlength : bytes.length = w.bytes.length := by
      rw [← hbytes]
      exact length_overwrite (by omega)
    generalize hb' : ({ b with
      data := (create junk s.pool (b.getInternalEnd - b.start + n)).2
      start := 0
      zeroAreaStart := b.zeroAreaStart + n - b.start
      zeroAreaEnd := b.zeroAreaEnd + n - b.start
      end_ := b.end_ + n - b.start } : Buffer) = b'
    obtain ⟨hok', hmoved⟩ := hok.moved b'.noteZeroArea (e := 0) hbytes (by omega) (by rw [← hb']; rfl)
      (by rw [← hb']; dsimp only [Buffer.noteZeroArea]; omega) (by rw [← hb']; dsimp only [Buffer.noteZeroArea]; omega)
      (by rw [← hb']; dsimp only [Buffer.noteZeroArea]; omega)
    obtain ⟨s', hs', hinv, hbuf, hval, hothers⟩ := h.move junk hb (b.getInternalEnd - b.start + n) (by rw [← hb']; rfl) hok'
    rw [Nat.add_zero, slice_self, List.append_nil] at hmoved
    rw [hmoved] at hinv
    refine ⟨s', ?_, _, b'.noteZeroArea, _, slice bytes 0 n, hinv, ?_, by rw [hbuf, update_self], hval, ?_, ?_⟩
    · rw [← hs', ← hb']
      rfl
    · exact length_slice (by omega)
    · rw [← hb']
      dsimp only [Buffer.noteZeroArea]
      omega
    · exact fun j x hj hx hdata => absurd hdata (hothers j x hj hx)

theorem Inv.newAtEnd_inPlace (h : s.Inv z c) (hb : s.buffers i = some b) (hd : s.pool.val b.data = some d) {e : ℕ}
    (he : b.getInternalEnd + e ≤ d.size) (hown : s.pool.count b.data = 1 ∨ b.end_ = d.dirtyEnd)
    (hb' : ({ b with end_ := b.end_ + e } : Buffer).noteZeroArea = b') :
    NewAtEnd ({ s with pool := s.pool.setVal b.data { d with dirtyEnd := b.end_ + e } }.setBuffer i b') c i
      (b.content d.bytes) e := by
  have hok := h.ok_other hd hb rfl
  have h₁ := hok.start_le
  have h₂ := hok.zero_le
  have h₃ := hok.end_le
  have hend := hok.internalEnd
  have hz := hok.zeros_le
  have hdirtyEnd := hok.dirtyEnd_le
  have hend' : b'.getInternalEnd = b.getInternalEnd + e := by
    rw [← hb', Buffer.getInternalEnd, Buffer.getInternalEnd]
    dsimp only [Buffer.noteZeroArea]
    omega
  have hdata : b'.data = b.data := by rw [← hb']; rfl
  -- a buffer that ends at the dirty end has the most zeros, so the others have their bytes before its own end
  have hothers : ∀ j x, j ≠ i → s.buffers j = some x → x.data = b.data →
      b.zeroAreaEnd - b.zeroAreaStart = z b.data ∧ x.getInternalEnd ≤ b.getInternalEnd := by
    intro j x hj hx hdata
    rcases hown with hone | hdirty
    · exact absurd (h.eq_of_count_le hb hone.le hx hdata) hj
    · have hle := (h.ok_other hd hx hdata).dirtyEnd_le
      omega
  have hgrown : b'.content d.bytes = b.content d.bytes ++ slice d.bytes b.getInternalEnd (b.getInternalEnd + e) := by
    rw [Buffer.content_of_le_end (n := b.getInternalEnd) (by rw [← hb']; exact hend.1) (by omega) hok.size_le, hend', ← hb']
    rfl
  refine ⟨update z b.data (b.zeroAreaEnd - b.zeroAreaStart), b', { d with dirtyEnd := b.end_ + e },
    slice d.bytes b.getInternalEnd (b.getInternalEnd + e), ?_, ?_, update_self _ _ _, ?_, ?_, fun j x hj hx hsame => ?_⟩
  · rw [← hgrown]
    refine h.inPlace hb hd { d with dirtyEnd := b.end_ + e } rfl rfl hdata ?_ fun j x hj hx hdata hokx => ⟨?_, rfl⟩
    · have hsize : b'.getInternalEnd ≤ d.bytes.length := by
        rw [hend']
        exact he
      have hdirty : b'.getInternalEnd + (b.zeroAreaEnd - b.zeroAreaStart) ≤ b.end_ + e := by omega
      rw [← hb'] at hsize hdirty ⊢
      refine ⟨h₁, h₂, ?_, hok.dirtyStart_le, le_rfl, hdirty, hsize⟩
      dsimp only [Buffer.noteZeroArea]
      omega
    · obtain ⟨hzeros, hle⟩ := hothers j x hj hx hdata
      refine ⟨hokx.start_le, hokx.zero_le, hokx.end_le, hokx.dirtyStart_le, ?_, ?_, hokx.size_le⟩
      · rw [hzeros]
        exact hokx.zeros_le
      · dsimp only
        omega
  · rw [length_slice he]
    omega
  · rw [hdata]
    exact update_self _ _ _
  · rw [← hb']
    dsimp only [Buffer.noteZeroArea]
    omega
  · change update s.buffers i _ j = some x at hx
    rw [update_of_ne hj] at hx
    have hle := (hothers j x hj hx (hsame.trans hdata)).2
    omega

/-- **`AddAtEnd`** adds bytes behind the others, where no other instance has bytes. -/
theorem Inv.addAtEnd (h : s.Inv z c) (hb : s.buffers i = some b) (hd : s.pool.val b.data = some d) (e : ℕ) :
    ∃ s', s.addAtEnd junk i b e = some s' ∧ s'.NewAtEnd c i (b.content d.bytes) e := by
  have hok := h.ok_other hd hb rfl
  have h₁ := hok.start_le
  have h₂ := hok.zero_le
  have h₃ := hok.end_le
  have h₄ := hok.size_le
  have hend := hok.internalEnd
  have hcount : s.pool.count b.data ≠ 0 := by
    rw [h.pool.count]
    exact uses_ne_zero hb
  rw [Memory.addAtEnd, hd, Option.bind_some]
  dsimp only
  split_ifs with hfit hassert
  · rw [Bool.and_eq_true, decide_eq_true_iff] at hfit
    exact ⟨_, rfl, h.newAtEnd_inPlace hb hd hfit.1 hassert rfl⟩
  · have hdirty := hok.dirtyEnd_le
    have hz := hok.zeros_le
    simp only [Bool.and_eq_true, Bool.not_eq_true', Bool.and_eq_false_iff, decide_eq_true_iff, decide_eq_false_iff_not] at hfit
    omega
  · rw [hend.2.2]
    obtain ⟨-, -, ⟨w, hw, hlen⟩, -⟩ := create_eq junk h.pool (b.getInternalEnd - b.start + e)
    have hcopied : (slice d.bytes b.start b.getInternalEnd).length = b.getInternalEnd - b.start := length_slice h₄
    rw [hw, Option.bind_some, Buffer.load_eq (by omega), Option.bind_some, Nat.add_sub_cancel' (h₁.trans hend.1),
      Iterator.store_eq (by omega), Option.bind_some]
    generalize hbytes : overwrite w.bytes 0 (slice d.bytes b.start b.getInternalEnd) = bytes
    have hlength : bytes.length = w.bytes.length := by
      rw [← hbytes]
      exact length_overwrite (by omega)
    generalize hb' : ({ b with
      data := (create junk s.pool (b.getInternalEnd - b.start + e)).2
      start := 0
      zeroAreaStart := b.zeroAreaStart - b.start
      zeroAreaEnd := b.zeroAreaEnd - b.start
      end_ := b.end_ - b.start + e } : Buffer) = b'
    obtain ⟨hok', hmoved⟩ := hok.moved b'.noteZeroArea (e := e) hbytes (by omega) (by rw [← hb']; rfl)
      (by rw [← hb']; dsimp only [Buffer.noteZeroArea]; omega) (by rw [← hb']; dsimp only [Buffer.noteZeroArea]; omega)
      (by rw [← hb']; dsimp only [Buffer.noteZeroArea]; omega)
    obtain ⟨s', hs', hinv, hbuf, hval, hothers⟩ := h.move junk hb (b.getInternalEnd - b.start + e) (by rw [← hb']; rfl) hok'
    rw [slice_self, List.nil_append] at hmoved
    rw [hmoved] at hinv
    refine ⟨s', ?_, _, b'.noteZeroArea, _, _, hinv, ?_, by rw [hbuf, update_self], hval, ?_, ?_⟩
    · rw [← hs', ← hb']
      rfl
    · rw [length_slice (by omega)]
      omega
    · rw [← hb']
      dsimp only [Buffer.noteZeroArea]
      omega
    · exact fun j x hj hx hdata => absurd hdata (hothers j x hj hx)

/-! ## Writes -/

def setBytes (s : Memory ι) (a : ℕ) (d : Data) (bytes : List UInt8) : Memory ι :=
  { s with pool := s.pool.setVal a { d with bytes := bytes } }

/-- **A write into bytes that no other instance has.** -/
theorem Inv.setBytes (h : s.Inv z c) (hb : s.buffers i = some b) (hd : s.pool.val b.data = some d) {off : ℕ}
    {src : List UInt8} (hlen : off + src.length ≤ d.bytes.length)
    (hothers : ∀ j x, j ≠ i → s.buffers j = some x → x.data = b.data →
      x.getInternalEnd ≤ off ∨ off + src.length ≤ x.start) :
    (s.setBytes b.data d (overwrite d.bytes off src)).Inv (update z b.data (z b.data))
      (update c i (some (b.content (overwrite d.bytes off src)))) := by
  have hok := h.ok_other hd hb rfl
  have hlength : (overwrite d.bytes off src).length = d.bytes.length := length_overwrite hlen
  refine h.inPlace hb hd { d with bytes := overwrite d.bytes off src } rfl ?_ rfl ?_ fun j x hj hx hdata hokx => ?_
  · exact (update_eq_self_iff.mpr hb.symm).symm
  · exact ⟨hok.start_le, hok.zero_le, hok.end_le, hok.dirtyStart_le, hok.zeros_le, hok.dirtyEnd_le, hok.size_le.trans hlength.ge⟩
  · refine ⟨⟨hokx.start_le, hokx.zero_le, hokx.end_le, hokx.dirtyStart_le, hokx.zeros_le, hokx.dirtyEnd_le,
      hokx.size_le.trans hlength.ge⟩, ?_⟩
    exact Buffer.content_overwrite_of_disjoint hokx.internalEnd.1 hokx.start_le hlen (hothers j x hj hx hdata)

theorem writeBytes_eq (hd : s.pool.val b.data = some d) {it : Iterator} {off : ℕ} {src : List UInt8} (hat : it.At off src.length)
    (hlen : off + src.length ≤ d.bytes.length) (each : Bool) :
    s.writeBytes b it src each = some (s.setBytes b.data d (overwrite d.bytes off src)) := by
  have hwrite : ∃ it', (if each then it.writeEach d.bytes src else it.write d.bytes src) =
      some (overwrite d.bytes off src, it') := by
    cases each with
    | true => exact hat.writeEach hlen
    | false => exact hat.write hlen
  obtain ⟨it', hit'⟩ := hwrite
  rw [Memory.writeBytes, hd, Option.bind_some, hit']
  rfl

theorem NewAtStart.room {l : List UInt8} {n : ℕ} (h : s.NewAtStart c i l n) : ∃ b d, s.buffers i = some b ∧
    s.pool.val b.data = some d ∧ b.begin.At b.start n ∧ b.start + n ≤ d.bytes.length ∧
      ∀ bytes, bytes.length = n → ∃ z, (s.setBytes b.data d (overwrite d.bytes b.start bytes)).Inv z
        (update c i (some (bytes ++ l))) := by
  obtain ⟨z, b, d, pad, hinv, hpad, hb, hd, hroom, hothers⟩ := h
  have hok := hinv.ok_other hd hb rfl
  have hend := hok.internalEnd
  have hzero := hok.zero_le
  have hle := hok.end_le
  have hsize := hok.size_le
  obtain ⟨d', hd', -, hc⟩ := hinv.ok i b hb
  rw [hd, Option.some_inj] at hd'
  rw [← hd', update_self, Option.some_inj, Buffer.content_of_start_le (n := b.start + n) (by omega) hroom (by omega)] at hc
  obtain ⟨-, hl⟩ := List.append_inj hc (by rw [hpad, length_slice (by omega)]; omega)
  refine ⟨b, d, hb, hd, ⟨le_rfl, ?_, hzero, .inl ⟨hroom, rfl⟩⟩, by omega, fun bytes hbytes => ?_⟩
  · change b.start + n ≤ b.end_
    omega
  · subst hbytes
    have hfit : b.start + bytes.length ≤ d.bytes.length := by omega
    have hinv' := hinv.setBytes hb hd hfit fun j x hj hx hdata => .inr (hothers j x hj hx hdata)
    rw [update_idem, Buffer.content_of_start_le (n := b.start + bytes.length) (by omega) hroom
      (by rw [length_overwrite (by omega)]; omega), slice_overwrite_self (by omega),
      Buffer.content_overwrite_of_disjoint (b := { b with start := b.start + bytes.length }) hend.1 hroom (by omega)
        (.inr le_rfl), ← hl] at hinv'
    exact ⟨_, hinv'⟩

theorem NewAtStart.writeBytes {l bytes : List UInt8} (h : s.NewAtStart c i l bytes.length) (each : Bool) :
    ∃ s' z', ((s.buffers i).bind fun b => s.writeBytes b b.begin bytes each) = some s' ∧
      s'.Inv z' (update c i (some (bytes ++ l))) := by
  obtain ⟨b, d, hb, hd, hat, hlen, hwrite⟩ := h.room
  obtain ⟨z', hinv'⟩ := hwrite bytes rfl
  rw [hb, Option.bind_some, writeBytes_eq hd hat hlen]
  exact ⟨_, z', rfl, hinv'⟩

/-- **A write behind the old bytes** changes only the new bytes at the end. -/
theorem NewAtEnd.writeBehind {l : List UInt8} {n : ℕ} (h : s.NewAtEnd c i l n) : ∃ b d off, s.buffers i = some b ∧
    s.pool.val b.data = some d ∧ off + n = b.getInternalEnd ∧ off + n ≤ d.bytes.length ∧ b.zeroAreaEnd + n ≤ b.end_ ∧
      b.start ≤ b.zeroAreaStart ∧ b.zeroAreaStart ≤ b.zeroAreaEnd ∧ ∀ place bytes, off ≤ place →
        place + bytes.length ≤ d.bytes.length → ∃ z, (s.setBytes b.data d (overwrite d.bytes place bytes)).Inv z
          (update c i (some (l ++ slice (overwrite d.bytes place bytes) off (off + n)))) := by
  obtain ⟨z, b, d, pad, hinv, hpad, hb, hd, hroom, hothers⟩ := h
  have hok := hinv.ok_other hd hb rfl
  have hend := hok.internalEnd
  have hstart := hok.start_le
  have hzero := hok.zero_le
  have hsize := hok.size_le
  obtain ⟨off, hoff⟩ : ∃ off, off + n = b.getInternalEnd := ⟨_, Nat.sub_add_cancel (by omega)⟩
  obtain ⟨d', hd', -, hc⟩ := hinv.ok i b hb
  rw [hd, Option.some_inj] at hd'
  rw [← hd', update_self, Option.some_inj, Buffer.content_of_le_end (n := off) (by omega) (by omega) (by omega)] at hc
  obtain ⟨hl, -⟩ := List.append_inj' hc (by rw [hpad, length_slice (by omega)]; omega)
  refine ⟨b, d, off, hb, hd, hoff, by omega, hroom, hstart, hzero, fun place bytes hplace hlen => ?_⟩
  have hinv' := hinv.setBytes hb hd hlen fun j x hj hx hdata => .inl (by have := hothers j x hj hx hdata; omega)
  rw [update_idem, Buffer.content_of_le_end (n := off) (by omega) (by omega) (by rw [length_overwrite (by omega)]; omega),
    slice_overwrite_of_disjoint (by omega) (by omega), slice_overwrite_of_disjoint (by omega) (by omega), ← hoff,
    ← hl] at hinv'
  exact ⟨_, hinv'⟩

theorem NewAtEnd.room {l : List UInt8} {n : ℕ} (h : s.NewAtEnd c i l n) : ∃ b d it off, s.buffers i = some b ∧
    s.pool.val b.data = some d ∧ b.endIterator.prev n = some it ∧ it.At off n ∧ off + n ≤ d.bytes.length ∧
      ∀ bytes, bytes.length = n → ∃ z, (s.setBytes b.data d (overwrite d.bytes off bytes)).Inv z
        (update c i (some (l ++ bytes))) := by
  obtain ⟨b, d, off, hb, hd, hoff, hlen, hroom, hstart, hzero, hwrite⟩ := h.writeBehind
  have hend : b.getInternalEnd = b.end_ - (b.zeroAreaEnd - b.zeroAreaStart) := rfl
  have hprev : b.endIterator.prev n = some { b.endIterator with current := b.end_ - n } := by
    refine if_pos ?_
    change b.end_ ≥ n
    omega
  refine ⟨b, d, _, off, hb, hd, hprev, ⟨?_, ?_, hzero, .inr ⟨?_, ?_⟩⟩, hlen, fun bytes hbytes => ?_⟩
  any_goals
    dsimp only [Buffer.endIterator]
    omega
  obtain ⟨z, hinv⟩ := hwrite off bytes le_rfl (by omega)
  rw [← hbytes, slice_overwrite_self (by omega)] at hinv
  exact ⟨z, hinv⟩

theorem NewAtEnd.writeBytes {l bytes : List UInt8} (h : s.NewAtEnd c i l bytes.length) (each : Bool) :
    ∃ s' z', ((s.buffers i).bind fun b => (b.endIterator.prev bytes.length).bind fun it => s.writeBytes b it bytes each) =
        some s' ∧ s'.Inv z' (update c i (some (l ++ bytes))) := by
  obtain ⟨b, d, it, off, hb, hd, hprev, hat, hlen, hwrite⟩ := h.room
  obtain ⟨z', hinv'⟩ := hwrite bytes rfl
  rw [hb, Option.bind_some, hprev, Option.bind_some, writeBytes_eq hd hat hlen]
  exact ⟨_, z', rfl, hinv'⟩

/-! ## Runs -/

theorem wrapSub_of_le {x y : ℕ} (h : y ≤ x) (hx : x < 2 ^ 31) : Buffer.wrapSub x y = x - y := by
  rw [Buffer.wrapSub]
  omega

theorem wrapSub_of_lt {x y : ℕ} (h : x < y) (hy : y < x + 2 ^ 31) (hx : x < 2 ^ 31) : 2 ^ 31 < Buffer.wrapSub x y := by
  rw [Buffer.wrapSub]
  omega

/-- **A fragment**: what is not in the buffer makes the rest of it empty. -/
theorem take_drop_wrapSub {l : List UInt8} (start : ℕ) {length : ℕ} (hl : l.length < 2 ^ 31) (hlength : length < 2 ^ 31) :
    (l.drop start).take ((l.drop start).length - Buffer.wrapSub l.length (start + length)) = fragment l start length := by
  rw [fragment, List.length_drop]
  split_ifs with h
  · rw [wrapSub_of_le h hl]
    congr 1
    omega
  · by_cases hstart : l.length ≤ start
    · rw [List.drop_eq_nil_of_le hstart, List.take_nil]
    · have hwrap : 2 ^ 31 < Buffer.wrapSub l.length (start + length) := wrapSub_of_lt (by omega) (by omega) hl
      rw [show l.length - start - Buffer.wrapSub l.length (start + length) = 0 by omega, List.take_zero]

theorem Inv.createFragment (h : s.Inv z c) (hi : s.buffers i = none) {o : ι} (hb : s.buffers o = some b) {start length : ℕ}
    (hlength : length < 2 ^ 31) (hsmall : c.Small) :
    ((s.copy i b).setBuffer i (({ b with maxZeroAreaStart := b.zeroAreaStart } : Buffer).createFragment start length)).Inv z
      (update c i ((c o).map fun l => fragment l start length)) := by
  obtain ⟨d, hd, hok, hc⟩ := h.ok o b hb
  generalize hx : ({ b with maxZeroAreaStart := b.zeroAreaStart } : Buffer) = x
  have hcopy := h.copy hi hb
  have hcopied : (s.copy i b).buffers i = some x := by
    rw [← hx]
    exact update_self _ _ _
  have hsize : x.getSize = (b.content d.bytes).length := by
    rw [hok.length_content, ← hx]
    rfl
  have hstart := hcopy.removeAtStart hcopied start
  have hend := hstart.removeAtEnd (update_self _ _ _) (Buffer.wrapSub x.getSize (start + length))
  have hwrap := take_drop_wrapSub start (hsmall o _ hc) hlength
  rw [update_idem, update_idem, update_self, update_self, hc, Option.map_some, Option.map_some, hsize, hwrap] at hend
  rw [hc, Option.map_some, Buffer.createFragment, hsize]
  have hset : ((s.copy i b).setBuffer i (x.removeAtStart start)).setBuffer i
      ((x.removeAtStart start).removeAtEnd (Buffer.wrapSub (b.content d.bytes).length (start + length))) =
        (s.copy i b).setBuffer i
          ((x.removeAtStart start).removeAtEnd (Buffer.wrapSub (b.content d.bytes).length (start + length))) := by
    rw [Memory.setBuffer, Memory.setBuffer, Memory.setBuffer, update_idem]
  rwa [hset] at hend

theorem Inv.eq_none (h : s.Inv z c) (hi : s.buffers i = none) : c i = none := by
  have hsome := h.isSome i
  rwa [hi, Option.isSome_none, Eq.comm, Option.isSome_eq_false_iff, Option.isNone_iff_eq_none] at hsome

/-- **One call** does on the buffers what it does on the lists. -/
theorem Inv.step (h : s.Inv z c) (hsmall : c.Small) (op : BufferOp ι) (hop : op.Small) :
    ∃ s' z', s.step junk op = some s' ∧ s'.Inv z' (c.step op) := by
  have hsame : ∀ j, c j = none → update c j none = c := fun j hj => by rw [update_eq_self_iff, hj]
  cases op with
  | construct i zeroSize =>
    rw [Memory.step, Contents.step, ← h.isSome]
    rcases hi : s.buffers i with _ | b
    · exact h.initBuffer junk hi zeroSize
    · exact ⟨s, z, rfl, h⟩
  | copy i o =>
    rw [Memory.step, Contents.step, ← h.isSome]
    rcases hi : s.buffers i with _ | b
    · rcases ho : s.buffers o with _ | x
      · rw [h.eq_none ho]
        exact ⟨s, z, rfl, by rw [hsame i (h.eq_none hi)]; exact h⟩
      · exact ⟨_, z, rfl, h.copy hi ho⟩
    · exact ⟨s, z, rfl, h⟩
  | assign i o =>
    rw [Memory.step, Contents.step, ← h.isSome, ← h.isSome]
    rcases hi : s.buffers i with _ | b
    · exact ⟨s, z, rfl, h⟩
    · rcases ho : s.buffers o with _ | x
      · exact ⟨s, z, rfl, h⟩
      · obtain ⟨s', hs', hinv⟩ := h.assign hi ho
        exact ⟨s', z, hs', hinv⟩
  | destroy i =>
    rw [Memory.step, Contents.step]
    rcases hi : s.buffers i with _ | b
    · exact ⟨s, z, rfl, by rw [hsame i (h.eq_none hi)]; exact h⟩
    · obtain ⟨s', hs', hinv⟩ := h.destroy hi
      exact ⟨s', z, hs', hinv⟩
  | addAtStart i bytes each =>
    rw [Memory.step, Contents.step]
    rcases hi : s.buffers i with _ | b
    · exact ⟨s, z, rfl, by rw [h.eq_none hi, Option.map_none, hsame i (h.eq_none hi)]; exact h⟩
    · obtain ⟨d, hd, -, hc⟩ := h.ok i b hi
      obtain ⟨s', hs', hnew⟩ := h.addAtStart junk hi hd bytes.length
      rw [Option.elim_some, hs', Option.bind_some, hc]
      exact hnew.writeBytes each
  | addAtEnd i bytes each =>
    rw [Memory.step, Contents.step]
    rcases hi : s.buffers i with _ | b
    · exact ⟨s, z, rfl, by rw [h.eq_none hi, Option.map_none, hsame i (h.eq_none hi)]; exact h⟩
    · obtain ⟨d, hd, -, hc⟩ := h.ok i b hi
      obtain ⟨s', hs', hnew⟩ := h.addAtEnd junk hi hd bytes.length
      rw [Option.elim_some, hs', Option.bind_some, hc]
      exact hnew.writeBytes each
  | removeAtStart i start =>
    rw [Memory.step, Contents.step]
    rcases hi : s.buffers i with _ | b
    · exact ⟨s, z, rfl, by rw [h.eq_none hi, Option.map_none, hsame i (h.eq_none hi)]; exact h⟩
    · exact ⟨_, z, rfl, h.removeAtStart hi start⟩
  | removeAtEnd i e =>
    rw [Memory.step, Contents.step]
    rcases hi : s.buffers i with _ | b
    · exact ⟨s, z, rfl, by rw [h.eq_none hi, Option.map_none, hsame i (h.eq_none hi)]; exact h⟩
    · exact ⟨_, z, rfl, h.removeAtEnd hi e⟩
  | createFragment i o start length =>
    rw [Memory.step, Contents.step, ← h.isSome]
    rcases hi : s.buffers i with _ | b
    · rcases ho : s.buffers o with _ | x
      · exact ⟨s, z, rfl, by rw [h.eq_none ho, Option.map_none, hsame i (h.eq_none hi)]; exact h⟩
      · exact ⟨_, z, rfl, h.createFragment hi ho hop.2 hsmall⟩
    · exact ⟨s, z, rfl, h⟩

theorem run_inv (ops : List (BufferOp ι)) (hops : ∀ op ∈ ops, op.Small)
    (hsizes : ∀ before, before <+: ops → (Contents.run before).Small) :
    ∃ s z, run junk ops = some s ∧ s.Inv z (Contents.run ops) := by
  induction ops using List.reverseRecOn with
  | nil => exact ⟨_, _, rfl, inv_init⟩
  | append_singleton ops op ih =>
    obtain ⟨s, z, hs, hinv⟩ := ih (fun op hmem => hops op (List.mem_append_left _ hmem))
      fun before hbefore => hsizes before (hbefore.trans (List.prefix_append ops [op]))
    obtain ⟨s', z', hs', hinv'⟩ := hinv.step junk (hsizes ops (List.prefix_append ops [op])) op
      (hops op (List.mem_append_right _ List.mem_cons_self))
    refine ⟨s', z', ?_, ?_⟩
    · rw [run, List.foldlM_append]
      change (run junk ops).bind (fun s => [op].foldlM (Memory.step junk) s) = some s'
      rw [hs, Option.bind_some, List.foldlM_cons, hs']
      rfl
    · rw [Contents.run, List.foldl_append]
      exact hinv'

/-- **Buffers are values.** With sizes below `2 ^ 31`, every run goes through without an access outside of a block, and each
instance has the bytes of its own list. -/
theorem run_values (ops : List (BufferOp ι)) (hops : ∀ op ∈ ops, op.Small)
    (hsizes : ∀ before, before <+: ops → (Contents.run before).Small) :
    ∃ s, run junk ops = some s ∧ s.Values (Contents.run ops) := by
  obtain ⟨s, z, hs, hinv⟩ := run_inv junk ops hops hsizes
  exact ⟨s, hs, hinv.values⟩

/-- A copy grows at both ends, and the original loses a byte. -/
theorem run_values_copy : ∃ ops : List (BufferOp Bool), Contents.run ops true = some [9, 1, 2, 0, 0, 8] ∧
    Contents.run ops false = some [1, 2, 0] ∧
    ∃ s, run (fun _ _ => 7) ops = some s ∧ s.Values (Contents.run ops) := by
  refine ⟨[.construct false 2, .addAtStart false [1, 2] true, .copy true false, .addAtEnd true [8] false,
    .removeAtEnd false 1, .addAtStart true [9] true], by decide, by decide,
    run_values _ _ (fun op hop => ?_) fun before hbefore => Contents.small_of_all ?_⟩
  · simp only [List.mem_cons, List.not_mem_nil, or_false] at hop
    rcases hop with rfl | rfl | rfl | rfl | rfl | rfl <;> exact trivial
  · rw [← List.mem_inits] at hbefore
    revert before
    decide

end Memory

end Ns3Ndn.Network
