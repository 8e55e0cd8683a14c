import Ns3Ndn.Table.Tables

/-!
# The FIB manager

`NFD/daemon/mgmt/fib-manager.cpp`: the commands that add and remove a next hop, on the tables. A face id 0
stands for the face that a command came from; the RIB manager has put a face in its place in every route, and
the FIB manager is taken without this.

* `costOf`: the cost of the next hop of an entry on a face;
* **`costOf_addNextHop`**, **`costOf_removeNextHop`**: a command changes one next hop and no other.
-/

namespace Ns3Ndn

/-! ## Next hops -/

def costOn (nextHops : List NextHop) (face : FaceId) : Option ℕ :=
  (nextHops.find? (·.face == face)).map NextHop.cost

section CostOn

variable {nextHops : List NextHop} {face : FaceId} {cost : ℕ} (f : FaceId)

theorem costOn_cons (nh : NextHop) (nextHops : List NextHop) :
    costOn (nh :: nextHops) f = if nh.face = f then some nh.cost else costOn nextHops f := by
  unfold costOn
  by_cases hf : nh.face = f
  · rw [List.find?_cons_of_pos (by simpa using hf), if_pos hf]
    rfl
  · rw [List.find?_cons_of_neg (by simpa using hf), if_neg hf]

theorem costOn_eq_none_iff : costOn nextHops f = none ↔ f ∉ nextHops.map NextHop.face := by
  simp [costOn]

theorem mem_of_costOn (h : costOn nextHops f = some cost) : (⟨f, cost⟩ : NextHop) ∈ nextHops := by
  unfold costOn at h
  obtain ⟨nh, hfind, rfl⟩ := Option.map_eq_some_iff.mp h
  have hface : nh.face = f := by simpa using List.find?_some hfind
  exact hface ▸ List.mem_of_find?_eq_some hfind

theorem costOn_perm {l l' : List NextHop} (h : (l.map NextHop.face).Nodup) (hperm : l.Perm l') :
    costOn l f = costOn l' f := by
  cases hcost' : costOn l' f with
  | none =>
    rw [costOn_eq_none_iff] at hcost' ⊢
    exact fun hmem => hcost' ((hperm.map _).mem_iff.mp hmem)
  | some cost' =>
    have hmem := hperm.mem_iff.mpr (mem_of_costOn f hcost')
    cases hcost : costOn l f with
    | none => exact absurd (List.mem_map_of_mem hmem) ((costOn_eq_none_iff f).mp hcost)
    | some cost =>
      have := List.inj_on_of_nodup_map h (mem_of_costOn f hcost) hmem rfl
      simpa using this

theorem costOn_replaceF (cost : ℕ) (hany : nextHops.any (·.face == face) = true) :
    costOn (nextHops.replaceF fun nh => if nh.face == face then some ⟨face, cost⟩ else none) f =
      if f = face then some cost else costOn nextHops f := by
  induction nextHops with
  | nil => simp at hany
  | cons nh nextHops ih =>
    by_cases hface : nh.face = face
    · have hreplace : (nh :: nextHops).replaceF (fun nh => if nh.face == face then some ⟨face, cost⟩ else none) =
          ⟨face, cost⟩ :: nextHops := by
        simp [List.replaceF, hface]
      rw [hreplace, costOn_cons, costOn_cons, hface]
      by_cases hf : f = face
      · simp [hf]
      · simp [hf, Ne.symm hf]
    · have hany' : nextHops.any (·.face == face) = true := by simpa [hface] using hany
      have hreplace : (nh :: nextHops).replaceF (fun nh => if nh.face == face then some ⟨face, cost⟩ else none) =
          nh :: nextHops.replaceF fun nh => if nh.face == face then some ⟨face, cost⟩ else none := by
        simp [List.replaceF, hface]
      rw [hreplace, costOn_cons, costOn_cons, ih hany']
      by_cases hf : f = face
      · simp [hf, hface]
      · simp [hf]

theorem costOn_concat (cost : ℕ) (hany : ¬ nextHops.any (·.face == face) = true) :
    costOn (nextHops ++ [⟨face, cost⟩]) f = if f = face then some cost else costOn nextHops f := by
  induction nextHops with
  | nil =>
    rw [List.nil_append, costOn_cons]
    simp only [eq_comm]
  | cons nh nextHops ih =>
    simp only [List.any_cons, Bool.or_eq_true, beq_iff_eq, not_or] at hany
    rw [List.cons_append, costOn_cons, costOn_cons, ih hany.2]
    by_cases hf : f = face
    · subst hf
      simp [hany.1]
    · simp [hf]

theorem costOn_eraseP (h : (nextHops.map NextHop.face).Nodup) :
    costOn (nextHops.eraseP (·.face == face)) f = if f = face then none else costOn nextHops f := by
  induction nextHops with
  | nil => simp [costOn]
  | cons nh nextHops ih =>
    obtain ⟨hnh, hnodup⟩ := List.nodup_cons.mp (List.map_cons ▸ h)
    by_cases hface : nh.face = face
    · subst hface
      rw [List.eraseP_cons_of_pos (by simp), costOn_cons]
      by_cases hf : f = nh.face
      · rw [if_pos hf, hf, costOn_eq_none_iff]
        exact hnh
      · rw [if_neg hf, if_neg (Ne.symm hf)]
    · rw [List.eraseP_cons_of_neg (by simpa using hface), costOn_cons, costOn_cons, ih hnodup]
      by_cases hf : f = face
      · subst hf
        simp [hface]
      · simp [hf]

theorem costOn_addOrUpdateNextHop (S : NextHopSort) (h : Tables.Ordered nextHops) (face : FaceId) (cost : ℕ) :
    costOn (Tables.addOrUpdateNextHop S nextHops face cost).1 f =
      if f = face then some cost else costOn nextHops f := by
  have hnodup := (Tables.ordered_addOrUpdateNextHop S face cost h).1
  unfold Tables.addOrUpdateNextHop at hnodup ⊢
  by_cases hany : nextHops.any (·.face == face) = true
  · rw [if_pos hany] at hnodup ⊢
    rw [costOn_perm f hnodup (S.perm _), costOn_replaceF f cost hany]
  · rw [if_neg hany] at hnodup ⊢
    rw [costOn_perm f hnodup (S.perm _), costOn_concat f cost hany]

theorem costOn_removeNextHop (h : Tables.Ordered nextHops) (face : FaceId) :
    costOn ((Tables.removeNextHop nextHops face).getD nextHops) f =
      if f = face then none else costOn nextHops f := by
  unfold Tables.removeNextHop
  by_cases hany : nextHops.any (·.face == face) = true
  · rw [if_pos hany]
    exact costOn_eraseP f h.1
  · rw [if_neg hany, Option.getD_none]
    by_cases hf : f = face
    · rw [if_pos hf, costOn_eq_none_iff]
      subst hf
      simpa using hany
    · rw [if_neg hf]

end CostOn

namespace Tables

def costOf (t : Tables) (name : Name) (face : FaceId) : Option ℕ :=
  (t.tablesAt name).fibEntry.bind (costOn · face)

end Tables

/-! ## The commands -/

namespace FibManager

/-- The codes of `ControlResponse`. -/
def codeOk : ℕ := 200

def codeFaceNotFound : ℕ := 410

def codePrefixTooLong : ℕ := 414

section Commands

variable (S : NextHopSort) (faceTable : List FaceId) (t : Tables)

/-- `addNextHop`, with the code of its answer. -/
def addNextHop (name : Name) (faceId : FaceId) (cost : ℕ) : Tables × ℕ :=
  if maxDepth < name.length then (t, codePrefixTooLong)
  else if faceId ∉ faceTable then (t, codeFaceNotFound)
  else
    ((do
      let t ← t.fibInsert name
      let (t, _) ← t.fibAddOrUpdateNextHop S name faceId cost
      some t).getD t, codeOk)

def removeNextHop (name : Name) (faceId : FaceId) : Tables × ℕ :=
  if faceId ∉ faceTable then (t, codeOk)
  else
    match t.nameTree.findExactMatch name name.length with
    | none => (t, codeOk)
    | some nte => ((t.fibRemoveNextHop nte faceId).getD t, codeOk)

end Commands

end FibManager

/-! ## What a command changes -/

namespace Tables

variable {t t' : Tables}

theorem costOf_edit {name : Name} (hname : (t.nameTree.find? name).isSome)
    (f : TableEntries → TableEntries) (m : Name) (face : FaceId) :
    (t.edit name f).costOf m face =
      if m = name then (f (t.tablesAt name)).fibEntry.bind (costOn · face) else t.costOf m face := by
  unfold costOf
  rw [tablesAt_edit_eq]
  by_cases hm : m = name
  · rw [if_pos hm, if_pos ⟨hm.symm, hname⟩, hm]
  · rw [if_neg hm, if_neg fun h => hm h.1.symm]

/-- `Fib::insert` makes an entry without next hops. -/
theorem fibInsert_spec {name : Name} (hlen : name.length ≤ maxDepth) :
    ∃ t' nextHops, t.fibInsert name = some t' ∧ (t'.tablesAt name).fibEntry = some nextHops ∧
      (∀ face, costOn nextHops face = t.costOf name face) ∧
      ∀ m ≠ name, (t'.tablesAt m).fibEntry = (t.tablesAt m).fibEntry := by
  unfold fibInsert
  rw [if_neg (Nat.not_lt.mpr hlen)]
  have hlookup : ∀ m, (t.lookup name name.length).tablesAt m = t.tablesAt m := fun m =>
    NameTree.tablesAt_lookup name name.length m
  have hname : ((t.lookup name name.length).nameTree.find? name).isSome := by
    simpa using t.isSome_lookup_self name name.length
  cases hfib : (t.tablesAt name).fibEntry with
  | some nextHops =>
    refine ⟨_, nextHops, if_pos ?_, ?_, fun face => ?_, fun m _ => ?_⟩
    · rw [hlookup, hfib]
      rfl
    · rw [hlookup, hfib]
    · rw [costOf, hfib]
      rfl
    · rw [hlookup]
  | none =>
    refine ⟨_, [], if_neg ?_, ?_, fun face => ?_, fun m hm => ?_⟩
    · rw [hlookup, hfib]
      exact Bool.false_ne_true
    · exact congrArg TableEntries.fibEntry (tablesAt_edit_self hname _)
    · rw [costOf, hfib]
      rfl
    · change ((Tables.edit _ _ _).tablesAt m).fibEntry = _
      rw [tablesAt_edit_eq, if_neg fun h => hm h.1.symm, hlookup]

theorem costOf_fibRemoveNextHop (h : t.Valid) {name : Name} {face : FaceId} (m : Name) (f : FaceId) :
    ((t.fibRemoveNextHop name face).getD t).costOf m f =
      if m = name ∧ f = face then none else t.costOf m f := by
  unfold fibRemoveNextHop
  cases hfib : (t.tablesAt name).fibEntry with
  | none =>
    rw [Option.bind_eq_bind, Option.bind_none, Option.getD_none]
    split_ifs with hm
    · rw [hm.1, costOf, hfib]
      rfl
    · rfl
  | some nextHops =>
    have hordered := (h.entries name).ordered nextHops hfib
    have hname : (t.nameTree.find? name).isSome := isSome_of_fibEntry (hfib ▸ rfl)
    have hremove := costOn_removeNextHop f hordered face
    have hcost : t.costOf name f = costOn nextHops f := by
      rw [costOf, hfib]
      rfl
    rw [Option.bind_eq_bind, Option.bind_some]
    cases hl : Tables.removeNextHop nextHops face with
    | none =>
      rw [hl, Option.getD_none, ← hcost] at hremove
      change t.costOf m f = _
      by_cases hm : m = name
      · subst hm
        simpa using hremove
      · simp [hm]
    | some nextHops' =>
      rw [hl, Option.getD_some, ← hcost] at hremove
      dsimp only
      have hset : ∀ m, (t.edit name fun te => { te with fibEntry := some nextHops' }).costOf m f =
          if m = name ∧ f = face then none else t.costOf m f := by
        intro m
        rw [costOf_edit hname]
        by_cases hm : m = name
        · subst hm
          simpa using hremove
        · simp [hm]
      by_cases hempty : nextHops'.isEmpty = true
      · rw [if_pos hempty, Option.getD_some, ← hset]
        change (Tables.edit _ name fun te => { te with fibEntry := none }).costOf m f = _
        rw [costOf_edit ((isSome_edit ..).trans hname)]
        split_ifs with hm
        · rw [hm, costOf_edit hname, if_pos rfl, List.isEmpty_iff.mp hempty]
          rfl
        · rfl
      · rw [if_neg hempty, Option.getD_some, hset]

end Tables

namespace FibManager

variable {S : NextHopSort} {faceTable : List FaceId} {t : Tables}

/-- **An added next hop has the cost of the command, and the other next hops stay.** -/
theorem costOf_addNextHop (h : t.Valid) (name : Name) (faceId : FaceId) (cost : ℕ) (m : Name) (f : FaceId) :
    (addNextHop S faceTable t name faceId cost).1.costOf m f =
      if (m = name ∧ f = faceId) ∧ name.length ≤ maxDepth ∧ faceId ∈ faceTable then some cost
      else t.costOf m f := by
  unfold addNextHop
  by_cases hlen : maxDepth < name.length
  · rw [if_pos hlen, if_neg fun hc => absurd hc.2.1 (Nat.not_le.mpr hlen)]
  · rw [if_neg hlen]
    by_cases hface : faceId ∉ faceTable
    · rw [if_pos hface, if_neg fun hc => hface hc.2.2]
    · rw [if_neg hface]
      obtain ⟨t', nextHops, hinsert, hfib, hcost, hother⟩ := t.fibInsert_spec (Nat.not_lt.mp hlen)
      have hvalid : t'.Valid := (Tables.fibInsert_changes hinsert : Tables.Changes True t t').valid h
      have hordered := (hvalid.entries name).ordered nextHops hfib
      have hname : (t'.nameTree.find? name).isSome := Tables.isSome_of_fibEntry (hfib ▸ rfl)
      simp only [hinsert, Tables.fibAddOrUpdateNextHop, hfib, Option.bind_eq_bind, Option.bind_some, Option.getD_some]
      rw [Tables.costOf_edit hname]
      by_cases hm : m = name
      · subst hm
        rw [if_pos rfl, Option.bind_some, costOn_addOrUpdateNextHop f S hordered, hcost]
        by_cases hf : f = faceId
        · simp [hf, Nat.not_lt.mp hlen, not_not.mp hface]
        · simp [hf]
      · rw [if_neg hm, if_neg fun hc => hm hc.1.1, Tables.costOf, hother m hm]
        rfl

/-- **A removed next hop is gone, and the other next hops stay.** -/
theorem costOf_removeNextHop (h : t.Valid) (name : Name) (faceId : FaceId) (m : Name) (f : FaceId) :
    (removeNextHop faceTable t name faceId).1.costOf m f =
      if (m = name ∧ f = faceId) ∧ faceId ∈ faceTable then none else t.costOf m f := by
  unfold removeNextHop
  by_cases hface : faceId ∉ faceTable
  · rw [if_pos hface, if_neg fun hc => hface hc.2]
  · rw [if_neg hface]
    cases hfind : t.nameTree.findExactMatch name name.length with
    | none =>
      have hnone : t.nameTree.find? name = none := by
        simp only [NameTree.findExactMatch, min_self, List.take_length] at hfind
        split_ifs at hfind with hlen hname
        · exact Option.not_isSome_iff_eq_none.mp fun hname => absurd (h.shaped.depth hname) (Nat.not_le.mpr hlen)
        · exact Option.not_isSome_iff_eq_none.mp hname
      have hcost : ∀ f, t.costOf name f = none := fun f => by
        rw [Tables.costOf, Tables.tablesAt, NameTree.tablesAt, hnone]
        rfl
      split_ifs with hm
      · rw [hm.1.1, hcost]
      · rfl
    | some nte =>
      obtain ⟨rfl, -⟩ := Tables.findExactMatch_eq_some hfind
      dsimp only
      rw [Tables.costOf_fibRemoveNextHop h]
      simp [not_not.mp hface]

theorem valid_addNextHop (h : t.Valid) (name : Name) (faceId : FaceId) (cost : ℕ) :
    (addNextHop S faceTable t name faceId cost).1.Valid := by
  unfold addNextHop
  by_cases hlen : maxDepth < name.length
  · rwa [if_pos hlen]
  by_cases hface : faceId ∉ faceTable
  · rwa [if_neg hlen, if_pos hface]
  rw [if_neg hlen, if_neg hface]
  cases hinsert : t.fibInsert name with
  | none => exact h
  | some t₁ =>
    have hvalid : t₁.Valid := (Tables.fibInsert_changes hinsert : Tables.Changes True t t₁).valid h
    rw [Option.bind_eq_bind, Option.bind_some]
    cases hadd : t₁.fibAddOrUpdateNextHop S name faceId cost with
    | none => exact h
    | some r =>
      obtain ⟨t₂, isNew⟩ := r
      exact (Tables.fibAddOrUpdateNextHop_changes hadd : Tables.Changes True t₁ t₂).valid hvalid

theorem valid_removeNextHop (h : t.Valid) (name : Name) (faceId : FaceId) :
    (removeNextHop faceTable t name faceId).1.Valid := by
  unfold removeNextHop
  by_cases hface : faceId ∉ faceTable
  · rwa [if_pos hface]
  rw [if_neg hface]
  cases t.nameTree.findExactMatch name name.length with
  | none => exact h
  | some nte =>
    dsimp only
    cases hremove : t.fibRemoveNextHop nte faceId with
    | none => exact h
    | some t' => exact (Tables.fibRemoveNextHop_changes hremove : Tables.Changes True t t').valid h

end FibManager

end Ns3Ndn
