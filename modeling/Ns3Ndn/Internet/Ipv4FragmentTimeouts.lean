import Ns3Ndn.Internet.Ipv4Fragments

/-!
# Timeouts of IPv4 fragments

`internet/model/ipv4-l3-protocol.cc`: each datagram that is not complete has an entry in a list of timeouts. The list is in the order of the
expirations, so that one event for its first entry is enough. The event is not cancelled when that datagram is complete: it fires then
without an entry to drop, and schedules the event for the first entry of that time.

* **`run_timed`**: no run fails, and incomplete datagrams are dropped when they expire.
-/

namespace Ns3Ndn.Internet

open Function (update update_self update_of_ne)

/-- `Fragments` with its `m_timeoutIter`. When the first fragment came is not in the code. -/
structure TimedFragments extends Fragments where
  timeoutIter : ℕ
  since : ℤ

namespace Fragments

/-- The loop of `GetPartialPacket`. Nothing is added of a fragment inside of the others. -/
def appendPartial : List UInt8 → List (List UInt8 × ℕ) → List UInt8
  | p, [] => p
  | p, g :: rest =>
    let lastEndOffset := p.length % 2 ^ 16
    if lastEndOffset > g.2 then
      let newStart := lastEndOffset - g.2
      appendPartial (p ++ createFragment g.1 newStart (g.1.length - newStart)) rest
    else if lastEndOffset = g.2 then appendPartial (p ++ g.1) rest
    else appendPartial p rest

/-- `GetPartialPacket`: the fragments from the beginning of the datagram up to the first gap. -/
def getPartialPacket (s : Fragments) : List UInt8 :=
  match s.fragments with
  | [] => []
  | g :: _ => if g.2 > 0 then [] else appendPartial [] s.fragments

end Fragments

/-- An entry of `m_timeoutEventList`, with a number that tells which node of the list it is. -/
structure FragmentTimeout where
  iter : ℕ
  expiry : ℤ
  key : FragmentKey
  ipHeader : Ipv4Header
  iif : UInt32

/-- What `m_dropTrace` reports of a datagram that was dropped, and whether an ICMP message was sent. -/
structure FragmentDrop where
  time : ℤ
  iter : ℕ
  since : ℤ
  key : FragmentKey
  ipHeader : Ipv4Header
  packet : List UInt8
  iif : UInt32
  icmp : Bool

/-- The reassembly buffer, the times of the `HandleTimeout` events that are pending in the scheduler, and what became of the datagrams:
those that were complete, by the numbers of their list nodes, and those that were dropped. -/
structure FragmentBuffer where
  now : ℤ := 0
  fragments : FragmentKey → Option TimedFragments := fun _ => none
  timeoutEventList : List FragmentTimeout := []
  pending : List ℤ := []
  nextIter : ℕ := 0
  completed : List ℕ := []
  dropped : List FragmentDrop := []

namespace FragmentBuffer

/-! ## The code -/

/-- `Simulator::Schedule` of `HandleTimeout`, with its assertion on the delay. -/
def schedule (s : FragmentBuffer) (delay : ℤ) : Option FragmentBuffer :=
  if 0 ≤ delay then some { s with pending := s.pending ++ [s.now + delay] } else none

/-- `SetTimeout` -/
def setTimeout (timeout : ℤ) (s : FragmentBuffer) (key : FragmentKey) (ipHeader : Ipv4Header) (iif : UInt32) :
    Option (ℕ × FragmentBuffer) :=
  (if s.timeoutEventList.isEmpty then s.schedule timeout else some s).map fun s =>
    (s.nextIter, { s with
      timeoutEventList := s.timeoutEventList ++ [⟨s.nextIter, s.now + timeout, key, ipHeader, iif⟩]
      nextIter := s.nextIter + 1 })

/-- The fragments that `ProcessFragment` adds to: those in the map, or new ones with a timeout. -/
def findFragments (timeout : ℤ) (s : FragmentBuffer) (key : FragmentKey) (ipHeader : Ipv4Header) (iif : UInt32) :
    Option (TimedFragments × FragmentBuffer) :=
  match s.fragments key with
  | some fragments => some (fragments, s)
  | none => (s.setTimeout timeout key ipHeader iif).map fun r => ({ timeoutIter := r.1, since := s.now }, r.2)

def processFragment (timeout : ℤ) (s : FragmentBuffer) (packet : Ipv4Packet) (iif : UInt32) :
    Option (Bool × List UInt8 × FragmentBuffer) :=
  let key := packet.2.key
  (s.findFragments timeout key packet.2 iif).map fun r =>
    let fragments := { r.1 with toFragments := r.1.addFragment packet.1 packet.2.fragmentOffset (! packet.2.isLastFragment) }
    if fragments.isEntire then
      (true, fragments.getPacket, { r.2 with
        fragments := update r.2.fragments key none
        timeoutEventList := r.2.timeoutEventList.filter fun i => i.iter ≠ fragments.timeoutIter
        completed := r.2.completed ++ [fragments.timeoutIter] })
    else (false, packet.1, { r.2 with fragments := update r.2.fragments key (some fragments) })

/-- `HandleFragmentsTimeout`, which uses the map entry without a test. -/
def handleFragmentsTimeout (s : FragmentBuffer) (i : FragmentTimeout) : Option FragmentBuffer :=
  (s.fragments i.key).map fun fragments =>
    let packet := fragments.getPartialPacket
    { s with
      fragments := update s.fragments i.key none
      dropped := s.dropped ++ [⟨s.now, fragments.timeoutIter, fragments.since, i.key, i.ipHeader, packet, i.iif, decide (packet.length > 8)⟩] }

def timeoutLoop : FragmentBuffer → List FragmentTimeout → Option FragmentBuffer
  | s, [] => some { s with timeoutEventList := [] }
  | s, i :: rest =>
    if i.expiry = s.now then (s.handleFragmentsTimeout i).bind fun s => timeoutLoop s rest
    else some { s with timeoutEventList := i :: rest }

def handleTimeout (s : FragmentBuffer) : Option FragmentBuffer :=
  (s.timeoutLoop s.timeoutEventList).bind fun s =>
    match s.timeoutEventList with
    | [] => some s
    | i :: _ => s.schedule (i.expiry - s.now)

/-- What happens: a fragment comes in, the clock goes on, or an event of now fires. -/
inductive Event where
  | receive (packet : Ipv4Packet) (iif : UInt32)
  | advance (now : ℤ)
  | fire

/-- Events fire exactly at their time, so that the clock does not go on beyond one that is pending. -/
def Event.Allowed (s : FragmentBuffer) : Event → Prop
  | .receive _ _ => True
  | .advance now => s.now ≤ now ∧ ∀ e ∈ s.pending, now ≤ e
  | .fire => s.now ∈ s.pending

instance (s : FragmentBuffer) (e : Event) : Decidable (e.Allowed s) :=
  match e with
  | .receive _ _ => inferInstanceAs (Decidable True)
  | .advance now => inferInstanceAs (Decidable (s.now ≤ now ∧ ∀ e ∈ s.pending, now ≤ e))
  | .fire => inferInstanceAs (Decidable (s.now ∈ s.pending))

def step (timeout : ℤ) (s : FragmentBuffer) : Event → Option FragmentBuffer
  | .receive packet iif => (s.processFragment timeout packet iif).map fun r => r.2.2
  | .advance now => some { s with now }
  | .fire => { s with pending := s.pending.erase s.now }.handleTimeout

def runFrom (timeout : ℤ) (s : FragmentBuffer) (events : List Event) : Option FragmentBuffer := events.foldlM (step timeout) s

/-- Events that can happen one after the other. -/
def AllowedFrom (timeout : ℤ) : FragmentBuffer → List Event → Prop
  | _, [] => True
  | s, e :: rest => e.Allowed s ∧ ∀ s', s.step timeout e = some s' → AllowedFrom timeout s' rest

def toMap (s : FragmentBuffer) : MapFragments := fun key => (s.fragments key).map TimedFragments.toFragments

theorem toMap_update (s : FragmentBuffer) (key : FragmentKey) (f : Option TimedFragments) :
    (fun k => (update s.fragments key f k).map TimedFragments.toFragments) = update s.toMap key (f.map TimedFragments.toFragments) := by
  funext k
  rcases eq_or_ne k key with rfl | hne
  · rw [update_self, update_self]
  · rw [update_of_ne hne, update_of_ne hne, toMap]

/-- **The timeouts do not change what `ProcessFragment` does.** -/
theorem processFragment_toMap {timeout : ℤ} {s : FragmentBuffer} {packet : Ipv4Packet} {iif : UInt32}
    {r : Bool × List UInt8 × FragmentBuffer} (hr : s.processFragment timeout packet iif = some r) :
    Internet.processFragment s.toMap packet = (r.1, r.2.1, r.2.2.toMap) := by
  obtain ⟨⟨f, s'⟩, hfind, rfl⟩ := Option.map_eq_some_iff.mp hr
  have hmap : s'.toMap = s.toMap ∧ (s.toMap packet.2.key).getD {} = f.toFragments := by
    unfold findFragments at hfind
    unfold toMap
    cases hkey : s.fragments packet.2.key with
    | some f' =>
      rw [hkey] at hfind
      obtain ⟨rfl, rfl⟩ := Prod.mk.inj (Option.some_inj.mp hfind)
      exact ⟨rfl, rfl⟩
    | none =>
      rw [hkey] at hfind
      obtain ⟨⟨iter, t⟩, hset, heq⟩ := Option.map_eq_some_iff.mp hfind
      obtain ⟨rfl, rfl⟩ := Prod.mk.inj heq
      obtain ⟨u, hu, heq⟩ := Option.map_eq_some_iff.mp hset
      obtain ⟨rfl, rfl⟩ := Prod.mk.inj heq
      refine ⟨?_, rfl⟩
      unfold schedule at hu
      split_ifs at hu
      · obtain rfl := Option.some_inj.mp hu
        rfl
      · obtain rfl := Option.some_inj.mp hu
        rfl
  unfold Internet.processFragment
  dsimp only
  rw [hmap.2, ← hmap.1]
  split_ifs
  · exact congrArg _ (congrArg _ (toMap_update s' _ none).symm)
  · exact congrArg _ (congrArg _ (toMap_update s' _ (some { f with
      toFragments := f.addFragment packet.1 packet.2.fragmentOffset (! packet.2.isLastFragment) })).symm)

/-! ## The invariant -/

/-- The datagrams that are not complete have the entries of the list `l`, and the others are complete or were dropped. -/
structure Listed (timeout : ℤ) (s : FragmentBuffer) (l : List FragmentTimeout) : Prop where
  sorted : l.Pairwise fun i j => i.expiry ≤ j.expiry
  nodup : (l.map FragmentTimeout.key).Nodup
  keys : ∀ k f, s.fragments k = some f → ∃ i ∈ l, i.key = k
  entry : ∀ i ∈ l, ∃ f, s.fragments i.key = some f ∧ f.timeoutIter = i.iter ∧ i.expiry = f.since + timeout
  iters : (l.map FragmentTimeout.iter).Nodup
  iter_lt : ∀ i ∈ l, i.iter < s.nextIter
  due : ∀ i ∈ l, s.now ≤ i.expiry ∧ i.expiry ≤ s.now + timeout
  pending : ∀ e ∈ s.pending, s.now ≤ e
  ended : ∀ n < s.nextIter, (∃ i ∈ l, i.iter = n) ∨ n ∈ s.completed ∨ ∃ d ∈ s.dropped, d.iter = n
  dropped : ∀ d ∈ s.dropped, d.time = d.since + timeout

/-- **The timeouts are right**: the first one has an event that does not come too late. -/
structure Timed (timeout : ℤ) (s : FragmentBuffer) : Prop extends Listed timeout s s.timeoutEventList where
  armed : ∀ i ∈ s.timeoutEventList.head?, ∃ e ∈ s.pending, e ≤ i.expiry

variable {timeout : ℤ} {s : FragmentBuffer} {l : List FragmentTimeout} {i : FragmentTimeout} {f : TimedFragments} {key : FragmentKey}

theorem Listed.iter_inj (h : Listed timeout s l) {j : FragmentTimeout} (hi : i ∈ l) (hj : j ∈ l) (heq : i.iter = j.iter) : i = j :=
  List.inj_on_of_nodup_map h.iters hi hj heq

theorem Timed.store (h : Timed timeout s) (hf : s.fragments key = some f) {e : TimedFragments} (hiter : e.timeoutIter = f.timeoutIter)
    (hsince : e.since = f.since) : Timed timeout { s with fragments := update s.fragments key (some e) } where
  sorted := h.sorted
  nodup := h.nodup
  keys := by
    intro k g hg
    rcases eq_or_ne k key with rfl | hne
    · exact h.keys k f hf
    · exact h.keys k g ((update_of_ne hne ..).symm.trans hg)
  entry := by
    intro i hi
    obtain ⟨g, hg, hgiter, hexpiry⟩ := h.entry i hi
    rcases eq_or_ne i.key key with hkey | hne
    · obtain rfl : f = g := Option.some_inj.mp (hf.symm.trans (hkey ▸ hg))
      exact ⟨e, hkey ▸ update_self .., hiter.trans hgiter, by rw [hexpiry, hsince]⟩
    · exact ⟨g, (update_of_ne hne ..).trans hg, hgiter, hexpiry⟩
  iters := h.iters
  iter_lt := h.iter_lt
  due := h.due
  pending := h.pending
  ended := h.ended
  dropped := h.dropped
  armed := h.armed

theorem Listed.remove (h : Listed timeout s l) (hf : s.fragments key = some f) {t : FragmentBuffer} {l' : List FragmentTimeout}
    (hsub : l'.Sublist l) (hmem : ∀ i, i ∈ l' ↔ i ∈ l ∧ i.iter ≠ f.timeoutIter) (hfragments : t.fragments = update s.fragments key none)
    (hnow : t.now = s.now) (hpending : t.pending = s.pending) (hnext : t.nextIter = s.nextIter)
    (hcompleted : ∀ n ∈ s.completed, n ∈ t.completed) (hkept : ∀ d ∈ s.dropped, d ∈ t.dropped)
    (hended : f.timeoutIter ∈ t.completed ∨ ∃ d ∈ t.dropped, d.iter = f.timeoutIter)
    (hdropped : ∀ d ∈ t.dropped, d.time = d.since + timeout) : Listed timeout t l' where
  sorted := h.sorted.sublist hsub
  nodup := h.nodup.sublist (hsub.map _)
  keys := by
    intro k g hg
    rw [hfragments] at hg
    have hne : k ≠ key := by
      rintro rfl
      rw [update_self] at hg
      cases hg
    rw [update_of_ne hne] at hg
    obtain ⟨i, hi, rfl⟩ := h.keys k g hg
    refine ⟨i, (hmem i).mpr ⟨hi, fun heq => ?_⟩, rfl⟩
    obtain ⟨j, hj, rfl⟩ := h.keys key f hf
    obtain ⟨g', hg', hiter, -⟩ := h.entry j hj
    obtain rfl := Option.some_inj.mp (hf.symm.trans hg')
    exact hne (congrArg _ (h.iter_inj hi hj (heq.trans hiter)))
  entry := by
    intro i hi
    obtain ⟨hi, hne⟩ := (hmem i).mp hi
    obtain ⟨g, hg, hiter, hexpiry⟩ := h.entry i hi
    refine ⟨g, ?_, hiter, hexpiry⟩
    rw [hfragments, update_of_ne, hg]
    rintro rfl
    obtain rfl := Option.some_inj.mp (hf.symm.trans hg)
    exact hne hiter.symm
  iters := h.iters.sublist (hsub.map _)
  iter_lt := by
    intro i hi
    rw [hnext]
    exact h.iter_lt i (hsub.subset hi)
  due := by
    intro i hi
    rw [hnow]
    exact h.due i (hsub.subset hi)
  pending := by
    rw [hpending, hnow]
    exact h.pending
  ended := by
    intro n hn
    rw [hnext] at hn
    rcases h.ended n hn with ⟨i, hi, rfl⟩ | hn | ⟨d, hd, rfl⟩
    · rcases eq_or_ne i.iter f.timeoutIter with heq | hne
      · exact .inr (by rwa [heq])
      · exact .inl ⟨i, (hmem i).mpr ⟨hi, hne⟩, rfl⟩
    · exact .inr (.inl (hcompleted n hn))
    · exact .inr (.inr ⟨d, hkept d hd, rfl⟩)
  dropped := hdropped

/-! ## What keeps it -/

theorem Timed.armed_all (h : Timed timeout s) (hi : i ∈ s.timeoutEventList) : ∃ e ∈ s.pending, e ≤ i.expiry := by
  have harmed := h.armed
  have hsorted := h.sorted
  cases hlist : s.timeoutEventList with
  | nil => exact absurd (hlist ▸ hi) List.not_mem_nil
  | cons first rest =>
    rw [hlist] at hi harmed hsorted
    obtain ⟨e, he, hle⟩ := harmed first rfl
    rcases List.mem_cons.mp hi with rfl | hi
    · exact ⟨e, he, hle⟩
    · exact ⟨e, he, hle.trans ((List.pairwise_cons.mp hsorted).1 i hi)⟩

theorem Listed.timed (h : Listed timeout s s.timeoutEventList) (harmed : ∀ i ∈ s.timeoutEventList, ∃ e ∈ s.pending, e ≤ i.expiry) :
    Timed timeout s := ⟨h, fun i hi => harmed i (List.mem_of_mem_head? hi)⟩

theorem Timed.append (ht : 0 ≤ timeout) (h : Timed timeout s) (hkey : s.fragments key = none) (ipHeader : Ipv4Header) (iif : UInt32)
    {pending : List ℤ} (hold : ∀ e ∈ s.pending, e ∈ pending) (hnow : ∀ e ∈ pending, s.now ≤ e)
    (hnew : s.timeoutEventList = [] → s.now + timeout ∈ pending) : Timed timeout { s with
      fragments := update s.fragments key (some { timeoutIter := s.nextIter, since := s.now })
      timeoutEventList := s.timeoutEventList ++ [⟨s.nextIter, s.now + timeout, key, ipHeader, iif⟩]
      pending := pending
      nextIter := s.nextIter + 1 } := by
  have hother : ∀ i ∈ s.timeoutEventList, i.key ≠ key := by
    rintro i hi rfl
    obtain ⟨f, hf, -⟩ := h.entry i hi
    rw [hkey] at hf
    cases hf
  refine ⟨⟨?_, ?_, fun k f hf => ?_, fun i hi => ?_, ?_, fun i hi => ?_, fun i hi => ?_, hnow, fun n hn => ?_, h.dropped⟩, fun i hi => ?_⟩
  · refine List.pairwise_append.mpr ⟨h.sorted, List.pairwise_singleton _ _, fun i hi j hj => ?_⟩
    rw [List.mem_singleton.mp hj]
    exact (h.due i hi).2
  · rw [List.map_append, List.nodup_append]
    refine ⟨h.nodup, List.nodup_singleton _, fun k hk k' hk' => ?_⟩
    obtain ⟨i, hi, rfl⟩ := List.mem_map.mp hk
    rw [List.mem_singleton.mp hk']
    exact hother i hi
  · rcases eq_or_ne k key with rfl | hne
    · exact ⟨_, List.mem_append_right _ List.mem_cons_self, rfl⟩
    · obtain ⟨i, hi, hik⟩ := h.keys k f ((update_of_ne hne ..).symm.trans hf)
      exact ⟨i, List.mem_append_left _ hi, hik⟩
  · rcases List.mem_append.mp hi with hi | hi
    · obtain ⟨f, hf, hrest⟩ := h.entry i hi
      exact ⟨f, (update_of_ne (hother i hi) ..).trans hf, hrest⟩
    · rw [List.mem_singleton.mp hi]
      exact ⟨_, update_self .., rfl, rfl⟩
  · rw [List.map_append, List.nodup_append]
    refine ⟨h.iters, List.nodup_singleton _, fun n hn n' hn' => ?_⟩
    obtain ⟨i, hi, rfl⟩ := List.mem_map.mp hn
    rw [List.mem_singleton.mp hn']
    exact (h.iter_lt i hi).ne
  · rcases List.mem_append.mp hi with hi | hi
    · exact (h.iter_lt i hi).trans (Nat.lt_succ_self _)
    · rw [List.mem_singleton.mp hi]
      exact Nat.lt_succ_self _
  · rcases List.mem_append.mp hi with hi | hi
    · exact h.due i hi
    · rw [List.mem_singleton.mp hi]
      exact ⟨le_add_of_nonneg_right ht, le_rfl⟩
  · rcases (Nat.lt_succ_iff.mp hn).lt_or_eq with hlt | rfl
    · rcases h.ended n hlt with ⟨i, hi, rfl⟩ | hn
      · exact .inl ⟨i, List.mem_append_left _ hi, rfl⟩
      · exact .inr hn
    · exact .inl ⟨_, List.mem_append_right _ List.mem_cons_self, rfl⟩
  · cases hlist : s.timeoutEventList with
    | nil =>
      rw [hlist] at hi
      obtain rfl := Option.some_inj.mp hi
      exact ⟨_, hnew hlist, le_rfl⟩
    | cons first rest =>
      obtain ⟨e, he, hle⟩ := h.armed_all (i := first) (by rw [hlist]; exact List.mem_cons_self)
      rw [hlist] at hi
      obtain rfl := Option.some_inj.mp hi
      exact ⟨e, hold e he, hle⟩

theorem Timed.findFragments (ht : 0 ≤ timeout) (h : Timed timeout s) (key : FragmentKey) (ipHeader : Ipv4Header) (iif : UInt32) :
    ∃ f t, s.findFragments timeout key ipHeader iif = some (f, t) ∧
      Timed timeout { t with fragments := update t.fragments key (some f) } := by
  unfold FragmentBuffer.findFragments
  cases hkey : s.fragments key with
  | some f => exact ⟨f, s, rfl, h.store hkey rfl rfl⟩
  | none =>
    unfold setTimeout
    by_cases hempty : s.timeoutEventList.isEmpty = true
    · rw [if_pos hempty, schedule, if_pos ht]
      refine ⟨_, _, rfl, h.append ht hkey ipHeader iif (fun e he => List.mem_append_left _ he) (fun e he => ?_)
        fun _ => List.mem_append_right _ List.mem_cons_self⟩
      rcases List.mem_append.mp he with he | he
      · exact h.pending e he
      · rw [List.mem_singleton.mp he]
        exact le_add_of_nonneg_right ht
    · rw [if_neg hempty]
      exact ⟨_, _, rfl, h.append ht hkey ipHeader iif (fun _ => id) h.pending fun hnil => absurd (List.isEmpty_iff.mpr hnil) hempty⟩

/-- **`ProcessFragment`** keeps the timeouts right. -/
theorem Timed.processFragment (ht : 0 ≤ timeout) (h : Timed timeout s) (packet : Ipv4Packet) (iif : UInt32) :
    ∃ r, s.processFragment timeout packet iif = some r ∧ Timed timeout r.2.2 := by
  obtain ⟨f, t, hfind, htimed⟩ := h.findFragments ht packet.2.key packet.2 iif
  have hf : update t.fragments packet.2.key (some f) packet.2.key = some f := update_self ..
  refine ⟨_, by rw [FragmentBuffer.processFragment, hfind]; rfl, ?_⟩
  dsimp only
  split_ifs with hentire
  · refine Listed.timed (htimed.remove hf List.filter_sublist (fun i => ?_) ?_ rfl rfl rfl (fun n hn => List.mem_append_left _ hn)
      (fun d hd => hd) (.inl (List.mem_append_right _ List.mem_cons_self)) htimed.dropped) fun i hi => ?_
    · rw [List.mem_filter, decide_eq_true_eq]
    · exact (Function.update_idem ..).symm
    · exact htimed.armed_all (List.mem_of_mem_filter hi)
  · have hstored := htimed.store hf (e := { f with
      toFragments := f.addFragment packet.1 packet.2.fragmentOffset (! packet.2.isLastFragment) }) rfl rfl
    rwa [Function.update_idem] at hstored

theorem Listed.timeoutLoop (h : Listed timeout s l) : ∃ t, s.timeoutLoop l = some t ∧ Listed timeout t t.timeoutEventList ∧
    ∀ i ∈ t.timeoutEventList.head?, t.now < i.expiry := by
  induction l generalizing s with
  | nil => exact ⟨_, rfl, ⟨h.sorted, h.nodup, h.keys, h.entry, h.iters, h.iter_lt, h.due, h.pending, h.ended, h.dropped⟩,
      fun i hi => absurd hi (Option.not_mem_none i)⟩
  | cons i rest ih =>
    rw [FragmentBuffer.timeoutLoop]
    split_ifs with hnow
    · obtain ⟨f, hf, hiter, hexpiry⟩ := h.entry i List.mem_cons_self
      have hnodup := List.nodup_cons.mp h.iters
      rw [handleFragmentsTimeout, hf, Option.map_some, Option.bind_some]
      refine ih (h.remove hf (List.sublist_cons_self i rest) (fun j => ?_) rfl rfl rfl rfl (fun n hn => hn)
        (fun d hd => List.mem_append_left _ hd) (.inr ⟨_, List.mem_append_right _ List.mem_cons_self, rfl⟩) fun d hd => ?_)
      · rw [List.mem_cons, hiter]
        refine ⟨fun hj => ⟨.inr hj, fun heq => hnodup.1 (heq ▸ List.mem_map_of_mem hj)⟩, fun hj => ?_⟩
        exact hj.1.resolve_left fun heq => hj.2 (congrArg _ heq)
      · rcases List.mem_append.mp hd with hd | hd
        · exact h.dropped d hd
        · rw [List.mem_singleton.mp hd]
          exact hnow.symm.trans hexpiry
    · refine ⟨_, rfl, ⟨h.sorted, h.nodup, h.keys, h.entry, h.iters, h.iter_lt, h.due, h.pending, h.ended, h.dropped⟩, fun j hj => ?_⟩
      obtain rfl := Option.some_inj.mp hj
      exact lt_of_le_of_ne (h.due i List.mem_cons_self).1 (Ne.symm hnow)

/-- **`HandleTimeout`** drops what expires now, and schedules the event for what expires next. -/
theorem Listed.handleTimeout (h : Listed timeout s s.timeoutEventList) : ∃ t, s.handleTimeout = some t ∧ Timed timeout t := by
  obtain ⟨t, hrun, hlisted, hlater⟩ := h.timeoutLoop
  rw [FragmentBuffer.handleTimeout, hrun, Option.bind_some]
  cases hlist : t.timeoutEventList with
  | nil => exact ⟨t, rfl, hlisted.timed fun i hi => absurd (hlist ▸ hi) List.not_mem_nil⟩
  | cons i rest =>
    have hlt := hlater i (by rw [hlist]; rfl)
    have hexpiry : t.now + (i.expiry - t.now) = i.expiry := by omega
    dsimp only
    rw [schedule, if_pos (by omega), hexpiry]
    refine ⟨_, rfl, ⟨hlisted.sorted, hlisted.nodup, hlisted.keys, hlisted.entry, hlisted.iters, hlisted.iter_lt, hlisted.due,
      fun e he => ?_, hlisted.ended, hlisted.dropped⟩, fun j hj => ⟨i.expiry, List.mem_append_right _ List.mem_cons_self, ?_⟩⟩
    · rcases List.mem_append.mp he with he | he
      · exact hlisted.pending e he
      · rw [List.mem_singleton.mp he]
        exact hlt.le
    · have hj : t.timeoutEventList.head? = some j := hj
      rw [hlist] at hj
      rw [Option.some_inj.mp hj]

/-- **One event.** -/
theorem Timed.step (ht : 0 ≤ timeout) (h : Timed timeout s) {e : Event} (he : e.Allowed s) :
    ∃ t, s.step timeout e = some t ∧ Timed timeout t := by
  cases e with
  | receive packet iif =>
    obtain ⟨r, hr, htimed⟩ := h.processFragment ht packet iif
    exact ⟨r.2.2, by rw [FragmentBuffer.step, hr, Option.map_some], htimed⟩
  | advance now =>
    obtain ⟨hle, hpending⟩ := he
    refine ⟨_, rfl, ⟨h.sorted, h.nodup, h.keys, h.entry, h.iters, h.iter_lt, fun i hi => ?_, hpending, h.ended, h.dropped⟩, h.armed⟩
    obtain ⟨e, he, hexpiry⟩ := h.armed_all hi
    exact ⟨(hpending e he).trans hexpiry, (h.due i hi).2.trans (add_le_add_left hle timeout)⟩
  | fire =>
    refine Listed.handleTimeout (s := { s with pending := s.pending.erase s.now }) ⟨h.sorted, h.nodup, h.keys, h.entry, h.iters,
      h.iter_lt, h.due, fun e he => ?_, h.ended, h.dropped⟩
    exact h.pending e (List.mem_of_mem_erase he)

theorem Timed.runFrom (ht : 0 ≤ timeout) (h : Timed timeout s) {events : List Event} (hevents : AllowedFrom timeout s events) :
    ∃ t, s.runFrom timeout events = some t ∧ Timed timeout t := by
  induction events generalizing s with
  | nil => exact ⟨s, rfl, h⟩
  | cons e rest ih =>
    obtain ⟨t, hstep, htimed⟩ := h.step ht hevents.1
    obtain ⟨u, hrun, htimed'⟩ := ih htimed (hevents.2 t hstep)
    refine ⟨u, ?_, htimed'⟩
    rw [FragmentBuffer.runFrom, List.foldlM_cons, hstep]
    exact hrun

theorem timed_init (timeout now : ℤ) : Timed timeout { now } where
  sorted := List.Pairwise.nil
  nodup := List.nodup_nil
  keys := fun k f hf => by cases hf
  entry := fun i hi => absurd hi List.not_mem_nil
  iters := List.nodup_nil
  iter_lt := fun i hi => absurd hi List.not_mem_nil
  due := fun i hi => absurd hi List.not_mem_nil
  pending := fun e he => absurd he List.not_mem_nil
  ended := fun n hn => absurd hn (Nat.not_lt_zero n)
  dropped := fun d hd => absurd hd List.not_mem_nil
  armed := fun i hi => absurd hi (Option.not_mem_none i)

/-- **Incomplete datagrams expire**: the list is sorted and has the keys of the map, once each; an event is pending for its first entry;
no datagram is kept beyond its expiration; each one is there, was complete or was dropped, and those dropped were dropped on time. -/
structure Expires (timeout : ℤ) (s : FragmentBuffer) : Prop where
  sorted : s.timeoutEventList.Pairwise fun i j => i.expiry ≤ j.expiry
  once : (s.timeoutEventList.map FragmentTimeout.key).Nodup
  keys : ∀ k, (s.fragments k).isSome = true ↔ ∃ i ∈ s.timeoutEventList, i.key = k
  armed : ∀ i ∈ s.timeoutEventList.head?, ∃ e ∈ s.pending, s.now ≤ e ∧ e ≤ i.expiry
  kept : ∀ k f, s.fragments k = some f → s.now ≤ f.since + timeout
  ended : ∀ n < s.nextIter, (∃ k f, s.fragments k = some f ∧ f.timeoutIter = n) ∨ n ∈ s.completed ∨ ∃ d ∈ s.dropped, d.iter = n
  dropped : ∀ d ∈ s.dropped, d.time = d.since + timeout

theorem Timed.expires (h : Timed timeout s) : Expires timeout s where
  sorted := h.sorted
  once := h.nodup
  keys := by
    refine fun k => ⟨fun hk => ?_, ?_⟩
    · obtain ⟨f, hf⟩ := Option.isSome_iff_exists.mp hk
      exact h.keys k f hf
    · rintro ⟨i, hi, rfl⟩
      obtain ⟨f, hf, -⟩ := h.entry i hi
      rw [hf, Option.isSome_some]
  armed := by
    intro i hi
    obtain ⟨e, he, hle⟩ := h.armed i hi
    exact ⟨e, he, h.pending e he, hle⟩
  kept := by
    intro k f hf
    obtain ⟨i, hi, rfl⟩ := h.keys k f hf
    obtain ⟨g, hg, -, hexpiry⟩ := h.entry i hi
    obtain rfl := Option.some_inj.mp (hf.symm.trans hg)
    rw [← hexpiry]
    exact (h.due i hi).1
  ended := by
    intro n hn
    rcases h.ended n hn with ⟨i, hi, rfl⟩ | hn
    · obtain ⟨f, hf, hiter, -⟩ := h.entry i hi
      exact .inl ⟨i.key, f, hf, hiter⟩
    · exact .inr hn
  dropped := h.dropped

/-- **Incomplete datagrams expire** in every run, and no run fails: no map entry is missing and no delay is negative. -/
theorem run_timed (timeout : ℤ) (ht : 0 ≤ timeout) (now : ℤ) (events : List Event) (hevents : AllowedFrom timeout { now } events) :
    ∃ s, runFrom timeout { now } events = some s ∧ Expires timeout s := by
  obtain ⟨s, hrun, htimed⟩ := (timed_init timeout now).runFrom ht hevents
  exact ⟨s, hrun, htimed.expires⟩

/-- The first fragment of a datagram comes, and the others do not. -/
def lostFragment : List Event :=
  [.receive ([1, 2, 3, 4, 5, 6, 7, 8], ⟨0x0a010101, 0x0a010102, 7, 17, true, 0, 8, false⟩) 1, .advance 20, .advance 30, .fire]

theorem run_timed_lostFragment : ∃ s, runFrom 30 {} lostFragment = some s ∧ Expires 30 s := by
  refine run_timed 30 (by decide) 0 lostFragment ⟨trivial, fun s hs => ?_⟩
  obtain rfl := Option.some_inj.mp hs
  refine ⟨by decide, fun s hs => ?_⟩
  obtain rfl := Option.some_inj.mp hs
  refine ⟨by decide, fun s hs => ?_⟩
  obtain rfl := Option.some_inj.mp hs
  exact ⟨List.mem_cons_self, fun _ _ => trivial⟩

end FragmentBuffer

end Ns3Ndn.Internet
